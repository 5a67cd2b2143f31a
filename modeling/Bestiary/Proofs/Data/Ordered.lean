import Bestiary.Proofs.Data.Table
import Bestiary.Proofs.Text.Digits

/-!
# The order of keys

In a table the keys that are array indexes stand in front and ascend, the others stay in the order
in which they were first written. So only of two keys that go to the end does it matter which is
written first.

* `arrayIndex?_inj`: different keys are different indexes.
* `Table.set_set_comm`: writes to two keys may change places, unless both go to the end.
* `Table.Ordered.set`: a write keeps the order of keys.
* `Table.arranged` is the order that a table gives to its keys; `Table.eq_arranged`: keys in order
  are determined by the indexes among them and by the sequence of the others.
-/

namespace Bestiary

/-- A key that is an array index is written as that number is. -/
theorem toList_of_arrayIndex? {key : String} {i : Nat} (h : arrayIndex? key = some i) :
    key.toList = Nat.toDigits 10 i := by
  simp only [arrayIndex?, Bool.and_eq_true, Bool.or_eq_true, List.all_eq_true,
    Option.ite_none_right_eq_some, Option.some.injEq] at h
  obtain ⟨⟨hdigits, hfirst⟩, -, rfl⟩ := h
  rw [← Nat.ofDigitChars_eq_foldl]
  rcases hfirst with hfirst | hzero
  · cases hkey : key.toList with
    | nil => simp [hkey] at hfirst
    | cons c ds =>
      rw [hkey] at hdigits hfirst
      exact (Text.toDigits_ofDigitChars (by simpa using hfirst) hdigits).symm
  · rw [of_decide_eq_true hzero]
    decide

/-- **Different keys are different array indexes.** -/
theorem arrayIndex?_inj {a b : String} {i : Nat} (ha : arrayIndex? a = some i)
    (hb : arrayIndex? b = some i) : a = b :=
  String.toList_injective ((toList_of_arrayIndex? ha).trans (toList_of_arrayIndex? hb).symm)

namespace Table

/-! ## Which key stands in front -/

variable {a b c : String}

/-- In front of an index stand the smaller indexes, in front of another key all keys. -/
theorem standsBefore_iff :
    standsBefore a b = true ↔
      ∀ j, arrayIndex? b = some j → ∃ i, arrayIndex? a = some i ∧ i < j := by
  unfold standsBefore
  cases arrayIndex? a <;> cases arrayIndex? b <;> simp

theorem standsBefore_trans (hab : standsBefore a b = true) (hbc : standsBefore b c = true) :
    standsBefore a c = true := by
  rw [standsBefore_iff] at *
  intro k hk
  obtain ⟨j, hj, hjk⟩ := hbc k hk
  obtain ⟨i, hi, hij⟩ := hab j hj
  exact ⟨i, hi, hij.trans hjk⟩

/-- An index stands in front of another key or behind it, not both. -/
theorem standsBefore_eq_not (hne : a ≠ b) {i : Nat} (ha : arrayIndex? a = some i) :
    standsBefore a b = !standsBefore b a := by
  unfold standsBefore
  rw [ha]
  cases hb : arrayIndex? b with
  | none => rfl
  | some j =>
    have hij : i ≠ j := by
      rintro rfl
      exact hne (arrayIndex?_inj ha hb)
    rw [← decide_not, decide_eq_decide]
    omega

/-- Only in front of an index does a key not stand. -/
theorem exists_index_of_not_standsBefore (h : ¬standsBefore a b = true) :
    ∃ i, arrayIndex? b = some i := by
  cases hb : arrayIndex? b with
  | none => exact absurd (standsBefore_iff.mpr (by simp [hb])) h
  | some i => exact ⟨i, rfl⟩

theorem standsBefore_of_not (hne : a ≠ b) (h : ¬standsBefore a b = true) :
    standsBefore b a = true := by
  obtain ⟨i, hi⟩ := exists_index_of_not_standsBefore h
  rw [standsBefore_eq_not (Ne.symm hne) hi]
  simpa using h

theorem standsBefore_of_not_of (hab : ¬standsBefore a b = true) (hac : standsBefore a c = true) :
    standsBefore b c = true := by
  by_cases h : a = b
  · rw [← h]
    exact hac
  · exact standsBefore_trans (standsBefore_of_not h hab) hac

/-! ## Writes that change places -/

variable {α : Type} {t : Table α} {k k' : String}

theorem set_of_mem (h : k ∈ t.keys) (v : α) : t.set k v = t.replace k v :=
  if_pos (has_eq_true_iff.mpr h)

theorem set_of_not_mem (h : k ∉ t.keys) (v : α) : t.set k v = t.insert k v :=
  if_neg (mt has_eq_true_iff.mp h)

theorem mem_keys_insert {v : α} : k' ∈ (t.insert k v).keys ↔ k' = k ∨ k' ∈ t.keys := by
  rw [keys, ((insert_perm t k v).map Prod.fst).mem_iff]
  exact List.mem_cons

/-- A new entry goes in front of the first key that it stands before. -/
theorem insert_cons (k₀ : String) (v : α) (t : Table α) (k : String) (x : α) :
    insert ((k₀, v) :: t) k x =
      if standsBefore k₀ k then (k₀, v) :: t.insert k x else (k, x) :: (k₀, v) :: t := by
  unfold insert
  by_cases h : standsBefore k₀ k = true <;> simp [h]

theorem replace_comm (hne : k ≠ k') (x y : α) :
    (t.replace k x).replace k' y = (t.replace k' y).replace k x := by
  induction t with
  | nil => rfl
  | cons e t ih =>
    obtain ⟨k₀, v⟩ := e
    by_cases hk : k₀ = k
    · subst hk
      simp [replace, hne]
    · by_cases hk' : k₀ = k'
      · subst hk'
        simp [replace, hk]
      · simp [replace, hk, hk', ih]

theorem insert_replace_comm (hne : k ≠ k') (x y : α) :
    (t.insert k x).replace k' y = (t.replace k' y).insert k x := by
  induction t with
  | nil => simp [insert, replace, hne]
  | cons e t ih =>
    obtain ⟨k₀, v⟩ := e
    by_cases hk' : k₀ = k'
    · subst hk'
      by_cases h : standsBefore k₀ k = true <;> simp [insert_cons, replace, h, hne]
    · by_cases h : standsBefore k₀ k = true <;> simp [insert_cons, replace, h, hne, hk', ih]

/-- An index finds its place whatever is written first. -/
theorem insert_insert_comm (hne : k ≠ k') {i : Nat} (hk : arrayIndex? k = some i) (x y : α) :
    (t.insert k x).insert k' y = (t.insert k' y).insert k x := by
  have hswap := standsBefore_eq_not hne hk
  induction t with
  | nil =>
    have hnil : ∀ k x, insert ([] : Table α) k x = [(k, x)] := fun _ _ => rfl
    rw [hnil, hnil, insert_cons, insert_cons, hswap, hnil, hnil]
    cases standsBefore k' k <;> rfl
  | cons e t ih =>
    obtain ⟨k₀, v⟩ := e
    rw [insert_cons, insert_cons]
    -- The first key stands before both, before one of them, or before neither.
    by_cases h : standsBefore k₀ k = true <;> by_cases h' : standsBefore k₀ k' = true
    · simp [insert_cons, h, h', ih]
    · simp [insert_cons, h, h', standsBefore_of_not_of h' h]
    · simp [insert_cons, h, h', standsBefore_of_not_of h h']
    · simp only [h, h', if_false, insert_cons, hswap, Bool.false_eq_true]
      cases standsBefore k' k <;> rfl

/-- A write to another key than the first goes into the rest of the table, unless it adds an index
that stands in front. -/
theorem set_cons_of_ne {k₀ : String} (hne : k₀ ≠ k) (v : α) (t : Table α) (x : α) :
    set ((k₀, v) :: t) k x =
      if k ∈ t.keys ∨ standsBefore k₀ k = true then (k₀, v) :: t.set k x
      else (k, x) :: (k₀, v) :: t := by
  by_cases hk : k ∈ t.keys
  · rw [set_of_mem (List.mem_cons_of_mem _ hk), replace, if_neg hne, if_pos (.inl hk),
      set_of_mem hk]
  · have hk' : k ∉ keys ((k₀, v) :: t) := by simp [hk, Ne.symm hne]
    rw [set_of_not_mem hk', insert_cons, set_of_not_mem hk]
    simp [hk]

/-- **Writes to two keys may change places** if the first key is there already or is an index. -/
theorem set_set_comm (hne : k ≠ k') (hk : k ∈ t.keys ∨ ∃ i, arrayIndex? k = some i) (x y : α) :
    (t.set k x).set k' y = (t.set k' y).set k x := by
  by_cases hmem : k ∈ t.keys <;> by_cases hmem' : k' ∈ t.keys
  · rw [set_of_mem hmem, set_of_mem hmem', set_of_mem (by rwa [keys_replace]),
      set_of_mem (by rwa [keys_replace]), replace_comm hne]
  · rw [set_of_mem hmem, set_of_not_mem hmem', set_of_not_mem (by rwa [keys_replace]),
      set_of_mem (mem_keys_insert.mpr (.inr hmem)), insert_replace_comm (Ne.symm hne)]
  · rw [set_of_not_mem hmem, set_of_mem hmem', set_of_mem (mem_keys_insert.mpr (.inr hmem')),
      set_of_not_mem (by rwa [keys_replace]), insert_replace_comm hne]
  · obtain ⟨i, hi⟩ := hk.resolve_left hmem
    rw [set_of_not_mem hmem, set_of_not_mem hmem', set_of_not_mem, set_of_not_mem,
      insert_insert_comm hne hi]
    · simp [mem_keys_insert, hne, hmem]
    · simp [mem_keys_insert, Ne.symm hne, hmem']

/-! ## Tables in order -/

theorem Ordered.insert (h : t.Ordered) (hk : k ∉ t.keys) (v : α) : (t.insert k v).Ordered := by
  obtain ⟨hnodup, hpairwise⟩ := h
  refine ⟨by rw [← set_of_not_mem hk]; exact nodup_keys_set hnodup k v, ?_⟩
  induction t with
  | nil => exact List.pairwise_singleton _ _
  | cons e t ih =>
    obtain ⟨k₀, w⟩ := e
    rw [keys_cons, List.mem_cons, not_or] at hk
    rw [keys_cons, List.nodup_cons] at hnodup
    rw [keys_cons, List.pairwise_cons] at hpairwise
    rw [insert_cons]
    split
    · rename_i hbefore
      rw [keys_cons, List.pairwise_cons]
      refine ⟨fun key hkey => ?_, ih hk.2 hnodup.2 hpairwise.2⟩
      rcases mem_keys_insert.mp hkey with rfl | hkey
      · exact hbefore
      · exact hpairwise.1 key hkey
    · rename_i hbefore
      have hfirst := standsBefore_of_not (Ne.symm hk.1) hbefore
      rw [keys_cons, keys_cons, List.pairwise_cons, List.forall_mem_cons, List.pairwise_cons]
      exact ⟨⟨hfirst, fun key hkey => standsBefore_trans hfirst (hpairwise.1 key hkey)⟩, hpairwise⟩

/-- **A write keeps the order of keys.** -/
theorem Ordered.set (h : t.Ordered) (k : String) (v : α) : (t.set k v).Ordered := by
  by_cases hk : k ∈ t.keys
  · rw [set_of_mem hk, Ordered, keys_replace]
    exact h
  · rw [set_of_not_mem hk]
    exact h.insert hk v

/-- Whether a key is an array index. -/
def isIndex (key : String) : Bool := (arrayIndex? key).isSome

/-- Whether one index is at most another. -/
def indexLe (a b : String) : Bool := (arrayIndex? a).getD 0 ≤ (arrayIndex? b).getD 0

/-- Keys as a table has them: the array indexes in front, ascending, then the others in the order
in which they are given. -/
def arranged (keys : List String) : List String :=
  (keys.filter isIndex).mergeSort indexLe ++ keys.filter fun key => !isIndex key

/-- A write to a new key that is no index puts it behind the others of its kind. -/
theorem filter_keys_set (t : Table α) (k : String) (v : α) :
    ((t.set k v).keys.filter fun key => !isIndex key) =
      (t.keys.filter fun key => !isIndex key) ++
        if k ∈ t.keys ∨ isIndex k = true then [] else [k] := by
  by_cases hk : k ∈ t.keys
  · rw [set_of_mem hk, keys_replace, if_pos (.inl hk), List.append_nil]
  cases hindex : isIndex k with
  | true =>
    rw [set_of_not_mem hk, if_pos (.inr rfl), List.append_nil, insert, keys_append, keys_cons,
      List.filter_append, List.filter_cons_of_neg (by simp [hindex]), ← List.filter_append,
      ← keys_append, List.takeWhile_append_dropWhile]
  | false =>
    have hnone : arrayIndex? k = none := by simpa [isIndex] using hindex
    rw [set_eq_append hk hnone, keys_append, List.filter_append, if_neg (by simp [hk])]
    simp [hindex]

/-- Keys in order are the indexes and then the others. -/
theorem eq_filter_append_filter {keys : List String}
    (h : keys.Pairwise fun a b => standsBefore a b = true) :
    keys = keys.filter isIndex ++ keys.filter fun key => !isIndex key := by
  induction keys with
  | nil => rfl
  | cons key keys ih =>
    rw [List.pairwise_cons] at h
    cases hkey : isIndex key with
    | true =>
      rw [List.filter_cons_of_pos hkey, List.filter_cons_of_neg (by simp [hkey]), List.cons_append,
        ← ih h.2]
    | false =>
      have hothers : ∀ other ∈ keys, isIndex other = false := by
        intro other hother
        cases hindex : arrayIndex? other with
        | none => simp [isIndex, hindex]
        | some j =>
          obtain ⟨i, hi, -⟩ := standsBefore_iff.mp (h.1 other hother) j hindex
          simp [isIndex, hi] at hkey
      rw [List.filter_eq_nil_iff.mpr, List.filter_eq_self.mpr, List.nil_append]
      · simpa [hkey] using hothers
      · simpa [hkey] using hothers

/-- **Keys in order are the arrangement** of any keys with the same indexes and the same others. -/
theorem eq_arranged {keys keys' : List String}
    (h : keys.Pairwise fun a b => standsBefore a b = true)
    (hindexes : (keys.filter isIndex).Perm (keys'.filter isIndex))
    (hothers : (keys.filter fun key => !isIndex key) = keys'.filter fun key => !isIndex key) :
    keys = arranged keys' := by
  rw [arranged, ← hothers]
  conv_lhs => rw [eq_filter_append_filter h]
  congr 1
  have hsorted : ((keys'.filter isIndex).mergeSort indexLe).Pairwise
      fun a b => indexLe a b = true :=
    List.pairwise_mergeSort (by simp [indexLe]; omega) (by simp [indexLe]; omega) _
  have hascending : (keys.filter isIndex).Pairwise fun a b => indexLe a b = true := by
    refine (h.sublist List.filter_sublist).imp_of_mem fun {a b} _ hb hab => decide_eq_true ?_
    obtain ⟨j, hj⟩ := Option.isSome_iff_exists.mp (List.mem_filter.mp hb).2
    obtain ⟨i, hi, hij⟩ := standsBefore_iff.mp hab j hj
    rw [hi, hj]
    exact hij.le
  refine List.Perm.eq_of_pairwise (fun a b ha hb hab hba => ?_) hascending hsorted
    (hindexes.trans (List.mergeSort_perm _ _).symm)
  rw [List.mem_mergeSort] at hb
  obtain ⟨i, hi⟩ := Option.isSome_iff_exists.mp (List.mem_filter.mp ha).2
  obtain ⟨j, hj⟩ := Option.isSome_iff_exists.mp (List.mem_filter.mp hb).2
  simp only [indexLe, hi, hj, Option.getD_some, decide_eq_true_iff] at hab hba
  obtain rfl : i = j := by omega
  exact arrayIndex?_inj hi hj

end Table

end Bestiary
