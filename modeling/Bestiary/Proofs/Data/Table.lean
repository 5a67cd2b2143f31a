import Bestiary.Schema.Record
import Mathlib.Data.List.Forall2
import Mathlib.Data.List.Nodup
import Mathlib.Data.List.TakeWhile

/-!
# Keys of tables

What the operations on tables do to the keys, and when a key is found.

* `mem_keys_iff` ties keys to `get?`; `mem_keys_set` and `nodup_keys_set` say what a write does.
* `modify` changes what is under one key.
* `Paired` relates tables with the same keys in the same order; writes keep it.
* `closed_eq_ok_iff` says which tables have no keys but the allowed ones.
-/

namespace Bestiary

namespace Table

variable {α : Type}

@[simp] theorem get?_nil (key : String) : get? ([] : Table α) key = none := rfl

@[simp] theorem get?_cons (k : String) (v : α) (t : Table α) (key : String) :
    get? ((k, v) :: t) key = if k = key then some v else t.get? key := rfl

@[simp] theorem keys_nil : keys ([] : Table α) = [] := rfl

@[simp] theorem keys_cons (k : String) (v : α) (t : Table α) : keys ((k, v) :: t) = k :: t.keys :=
  rfl

theorem keys_append (t u : Table α) : keys (t ++ u) = t.keys ++ u.keys := List.map_append

/-- What is found under a key is an entry. -/
theorem mem_of_get? {t : Table α} {key : String} {v : α} (h : t.get? key = some v) :
    (key, v) ∈ t := by
  induction t with
  | nil => exact absurd h (by simp)
  | cons e t ih =>
    obtain ⟨k, w⟩ := e
    rw [get?_cons] at h
    split at h
    · rename_i hk
      subst hk
      obtain rfl := Option.some.inj h
      exact List.mem_cons_self
    · exact List.mem_cons_of_mem _ (ih h)

/-- A key is one of the table iff something is found under it. -/
theorem mem_keys_iff {t : Table α} {key : String} : key ∈ t.keys ↔ ∃ v, t.get? key = some v := by
  induction t with
  | nil => simp
  | cons e t ih =>
    obtain ⟨k, w⟩ := e
    rw [keys_cons, List.mem_cons, get?_cons, ih]
    by_cases hk : k = key
    · simp [hk]
    · simp [hk, Ne.symm hk]

theorem get?_eq_none_iff {t : Table α} {key : String} : t.get? key = none ↔ key ∉ t.keys := by
  rw [mem_keys_iff]
  cases t.get? key <;> simp

/-- A key of the table is not one that is absent. -/
theorem ne_of_get?_eq_none {t : Table α} {key k : String} (h : t.get? key = none)
    (hk : k ∈ t.keys) : k ≠ key := by
  rintro rfl
  exact get?_eq_none_iff.mp h hk

theorem has_eq_true_iff {t : Table α} {key : String} : t.has key = true ↔ key ∈ t.keys := by
  rw [has, Option.isSome_iff_exists, mem_keys_iff]

/-- Where no key occurs twice, an entry is what is found under its key. -/
theorem get?_of_mem {t : Table α} (hn : t.keys.Nodup) {key : String} {v : α}
    (h : (key, v) ∈ t) : t.get? key = some v := by
  induction t with
  | nil => exact absurd h List.not_mem_nil
  | cons e t ih =>
    obtain ⟨k, w⟩ := e
    rw [keys_cons, List.nodup_cons] at hn
    rw [get?_cons]
    rcases List.mem_cons.mp h with h | h
    · obtain ⟨rfl, rfl⟩ := Prod.mk.inj h
      rw [if_pos rfl]
    · have hk : k ≠ key := by
        rintro rfl
        exact hn.1 (List.mem_map.mpr ⟨_, h, rfl⟩)
      rw [if_neg hk]
      exact ih hn.2 h

/-- The keys after a write. -/
theorem mem_keys_set {t : Table α} {k key : String} {v : α} :
    key ∈ (t.set k v).keys ↔ key = k ∨ key ∈ t.keys := by
  rw [mem_keys_iff, mem_keys_iff, get?_set]
  by_cases hk : k = key
  · simp [hk]
  · simp [hk, Ne.symm hk]

theorem mem_keys_erase {t : Table α} {k key : String} :
    key ∈ (t.erase k).keys ↔ key ≠ k ∧ key ∈ t.keys := by
  rw [mem_keys_iff, mem_keys_iff, get?_erase]
  by_cases hk : k = key
  · simp [hk]
  · simp [hk, Ne.symm hk]

/-- The entries after a write. -/
theorem mem_set {t : Table α} {k : String} {v : α} {e : String × α} (h : e ∈ t.set k v) :
    e = (k, v) ∨ e ∈ t := by
  unfold set at h
  split at h
  · clear * - h
    induction t with
    | nil => exact absurd h List.not_mem_nil
    | cons e' t ih =>
      obtain ⟨k', w⟩ := e'
      unfold replace at h
      split at h
      · rename_i hk
        subst hk
        rcases List.mem_cons.mp h with rfl | h
        · exact .inl rfl
        · exact .inr (List.mem_cons_of_mem _ h)
      · rcases List.mem_cons.mp h with rfl | h
        · exact .inr List.mem_cons_self
        · exact (ih h).imp_right (List.mem_cons_of_mem _)
  · unfold insert at h
    rcases List.mem_append.mp h with h | h
    · exact .inr ((List.takeWhile_prefix _).subset h)
    · rcases List.mem_cons.mp h with rfl | h
      · exact .inl rfl
      · exact .inr ((List.dropWhile_suffix _).subset h)

theorem keys_replace (t : Table α) (k : String) (v : α) : (t.replace k v).keys = t.keys := by
  induction t with
  | nil => rfl
  | cons e t ih =>
    obtain ⟨k', w⟩ := e
    unfold replace
    split
    · rename_i h
      rw [h, keys_cons, keys_cons]
    · rw [keys_cons, keys_cons, ih]

theorem insert_perm (t : Table α) (k : String) (v : α) : (t.insert k v).Perm ((k, v) :: t) := by
  unfold insert
  refine List.perm_middle.trans ?_
  rw [List.takeWhile_append_dropWhile]

/-- A write to a key that is absent adds an entry. -/
theorem set_perm {t : Table α} {k : String} (v : α) (h : t.get? k = none) :
    (t.set k v).Perm ((k, v) :: t) := by
  unfold set has
  rw [h]
  exact insert_perm t k v

/-- A new key that is no array index goes to the end. -/
theorem set_eq_append {t : Table α} {k : String} (h : k ∉ t.keys) (hindex : arrayIndex? k = none)
    (v : α) : t.set k v = t ++ [(k, v)] := by
  have hbefore : ∀ e ∈ t, standsBefore e.1 k = true := fun e _ => by
    rw [standsBefore, hindex]
    cases arrayIndex? e.1 <;> rfl
  rw [set, if_neg (mt has_eq_true_iff.mp h), insert, List.takeWhile_eq_self_iff.mpr hbefore,
    List.dropWhile_eq_nil_iff.mpr hbefore]

/-- A write leaves no key twice. -/
theorem nodup_keys_set {t : Table α} (hn : t.keys.Nodup) (k : String) (v : α) :
    (t.set k v).keys.Nodup := by
  unfold set
  split
  · rw [keys_replace]
    exact hn
  · rename_i h
    rw [has_eq_true_iff] at h
    have hp : (t.insert k v).keys.Perm (k :: t.keys) := (insert_perm t k v).map Prod.fst
    exact hp.nodup_iff.mpr (List.nodup_cons.mpr ⟨h, hn⟩)

theorem nodup_keys_erase {t : Table α} (hn : t.keys.Nodup) (k : String) :
    (t.erase k).keys.Nodup :=
  hn.sublist (List.filter_sublist.map _)

theorem erase_of_not_mem {t : Table α} {k : String} (h : k ∉ t.keys) : t.erase k = t := by
  refine List.filter_eq_self.mpr fun e he => decide_eq_true ?_
  rintro rfl
  exact h (List.mem_map.mpr ⟨e, he, rfl⟩)

theorem erase_append (t u : Table α) (k : String) :
    erase (t ++ u) k = t.erase k ++ u.erase k := List.filter_append ..

/-- Taking an entry out undoes a write, wherever the entry stood. -/
theorem erase_set (t : Table α) (k : String) (v : α) : (t.set k v).erase k = t.erase k := by
  unfold set
  split
  · induction t with
    | nil => rfl
    | cons e t ih =>
      obtain ⟨k', w⟩ := e
      unfold replace
      split
      · rename_i h
        simp [erase, h]
      · rename_i hk
        have ht : has t k = true := by
          rename_i h
          rw [has_eq_true_iff, keys_cons, List.mem_cons] at h
          exact has_eq_true_iff.mpr (h.resolve_left (Ne.symm hk))
        have hrest := ih ht
        unfold erase at hrest ⊢
        rw [List.filter_cons, List.filter_cons, hrest]
  · unfold insert erase
    rw [List.filter_append, List.filter_cons_of_neg (by simp), ← List.filter_append,
      List.takeWhile_append_dropWhile]

theorem replace_replace (t : Table α) (k : String) (v w : α) :
    (t.replace k v).replace k w = t.replace k w := by
  induction t with
  | nil => rfl
  | cons e t ih =>
    obtain ⟨k', u⟩ := e
    by_cases h : k' = k
    · simp only [replace, if_pos h]
    · simp only [replace, if_neg h, ih]

theorem replace_append_cons {t : Table α} {k : String} (h : k ∉ t.keys) (v w : α) (u : Table α) :
    (t ++ (k, v) :: u).replace k w = t ++ (k, w) :: u := by
  induction t with
  | nil => simp [replace]
  | cons e t ih =>
    obtain ⟨k', x⟩ := e
    rw [keys_cons, List.mem_cons, not_or] at h
    rw [List.cons_append, replace, if_neg (Ne.symm h.1), ih h.2, List.cons_append]

/-- Of two writes to one key the later counts. -/
@[simp] theorem set_set (t : Table α) (k : String) (v w : α) : (t.set k v).set k w = t.set k w := by
  have hhas : (t.set k v).has k = true := by simp [has]
  rw [set, if_pos hhas]
  unfold set
  split
  · rw [replace_replace]
  · rename_i hnone
    unfold insert
    refine replace_append_cons (fun hmem => hnone ?_) v w _
    rw [has_eq_true_iff]
    exact List.map_subset Prod.fst (List.takeWhile_prefix _).subset hmem

theorem set_of_get? {t : Table α} {k : String} {v : α} (h : t.get? k = some v) (w : α) :
    t.set k w = t.replace k w := by
  unfold set has
  rw [h]
  rfl

/-! ### Changes to one entry -/

/-- The table with `f` done to what is under a key. -/
def modify (t : Table α) (key : String) (f : α → α) : Table α :=
  match t.get? key with
  | some v => t.replace key (f v)
  | none => t

theorem modify_cons_self (key : String) (v : α) (t : Table α) (f : α → α) :
    modify ((key, v) :: t) key f = (key, f v) :: t := by
  simp [modify, replace]

theorem modify_cons_of_ne {k key : String} (h : k ≠ key) (v : α) (t : Table α) (f : α → α) :
    modify ((k, v) :: t) key f = (k, v) :: t.modify key f := by
  unfold modify
  rw [get?_cons, if_neg h]
  cases t.get? key with
  | none => rfl
  | some w => simp [replace, h]

theorem modify_of_not_mem {t : Table α} {key : String} (h : key ∉ t.keys) (f : α → α) :
    t.modify key f = t := by
  rw [modify, get?_eq_none_iff.mpr h]

theorem get?_modify (t : Table α) (key : String) (f : α → α) (k : String) :
    (t.modify key f).get? k = if key = k then (t.get? k).map f else t.get? k := by
  unfold modify
  by_cases hk : key = k
  · subst hk
    rw [if_pos rfl]
    cases h : t.get? key with
    | none => exact h
    | some v => simp [get?_replace, h]
  · rw [if_neg hk]
    cases t.get? key with
    | none => rfl
    | some v => rw [get?_replace, if_neg hk]

theorem keys_modify (t : Table α) (key : String) (f : α → α) : (t.modify key f).keys = t.keys := by
  unfold modify
  cases t.get? key with
  | none => rfl
  | some v => exact keys_replace ..

/-- A change leaves a table as it is iff it leaves what is under the key. -/
theorem modify_eq_self_iff {t : Table α} {key : String} {f : α → α} :
    t.modify key f = t ↔ ∀ v, t.get? key = some v → f v = v := by
  induction t with
  | nil => simp [modify]
  | cons e t ih =>
    obtain ⟨k, v⟩ := e
    by_cases h : k = key
    · subst h
      rw [modify_cons_self]
      simp
    · rw [modify_cons_of_ne h, get?_cons, if_neg h, ← ih]
      simp

/-- A write of what is there already changes nothing. -/
theorem set_eq_self {t : Table α} {k : String} {v : α} (h : t.get? k = some v) : t.set k v = t := by
  have hmodify : t.modify k (fun _ => v) = t.replace k v := by rw [modify, h]
  rw [set_of_get? h, ← hmodify, modify_eq_self_iff]
  intro w hw
  exact Option.some.inj (h.symm.trans hw)

/-- Two tables with the same under every key but `free`. -/
def AgreeBut (free : String) (t u : Table α) : Prop := ∀ k, k ≠ free → u.get? k = t.get? k

theorem agreeBut_set (t : Table α) (free : String) (v : α) : t.AgreeBut free (t.set free v) := by
  intro k hk
  rw [get?_set, if_neg (Ne.symm hk)]

namespace AgreeBut

variable {free : String} {t u : Table α}

/-- A write under `free` does not matter. -/
theorem set_free (h : t.AgreeBut free u) (v w : α) :
    (t.set free v).AgreeBut free (u.set free w) := by
  intro k hk
  rw [get?_set, get?_set, if_neg (Ne.symm hk), if_neg (Ne.symm hk)]
  exact h k hk

theorem set (h : t.AgreeBut free u) (k : String) (v : α) :
    (t.set k v).AgreeBut free (u.set k v) := by
  intro key hkey
  rw [get?_set, get?_set, h key hkey]

end AgreeBut

/-- Two tables have the same keys in the same order, and what is under them is related. -/
def Paired {β : Type} (R : α → β → Prop) (t : Table α) (u : Table β) : Prop :=
  List.Forall₂ (fun e e' => e.1 = e'.1 ∧ R e.2 e'.2) t u

namespace Paired

variable {β : Type} {R : α → β → Prop} {t : Table α} {u : Table β}

theorem keys_eq (h : t.Paired R u) : t.keys = u.keys := by
  induction h with
  | nil => rfl
  | cons he _ ih => exact congrArg₂ List.cons he.1 ih

theorem get? (h : t.Paired R u) (key : String) : Option.Rel R (t.get? key) (u.get? key) := by
  induction h with
  | nil => exact .none
  | @cons e e' _ _ he _ ih =>
    obtain ⟨k, v⟩ := e
    obtain ⟨k', w⟩ := e'
    obtain ⟨rfl, hvw⟩ := he
    rw [get?_cons, get?_cons]
    split
    · exact .some hvw
    · exact ih

theorem replace (h : t.Paired R u) (k : String) {v : α} {w : β} (hvw : R v w) :
    (t.replace k v).Paired R (u.replace k w) := by
  induction h with
  | nil => exact .nil
  | @cons e e' _ _ he hrest ih =>
    obtain ⟨k', v'⟩ := e
    obtain ⟨k'', w'⟩ := e'
    obtain ⟨rfl, hvw'⟩ := he
    unfold Table.replace
    split
    · exact .cons ⟨rfl, hvw⟩ hrest
    · exact .cons ⟨rfl, hvw'⟩ ih

theorem insert (h : t.Paired R u) (k : String) {v : α} {w : β} (hvw : R v w) :
    (t.insert k v).Paired R (u.insert k w) := by
  unfold Table.insert
  induction h with
  | nil => exact .cons ⟨rfl, hvw⟩ .nil
  | cons he hrest ih =>
    rw [List.takeWhile_cons, List.takeWhile_cons, List.dropWhile_cons, List.dropWhile_cons, he.1]
    split
    · exact .cons he ih
    · exact .cons ⟨rfl, hvw⟩ (.cons he hrest)

/-- The same key is written to in both. -/
theorem set (h : t.Paired R u) (k : String) {v : α} {w : β} (hvw : R v w) :
    (t.set k v).Paired R (u.set k w) := by
  have hhas : t.has k = u.has k := by
    rw [Bool.eq_iff_iff, has_eq_true_iff, has_eq_true_iff, h.keys_eq]
  unfold Table.set
  rw [hhas]
  split
  · exact h.replace k hvw
  · exact h.insert k hvw

end Paired

end Table

namespace Record

variable {ε : Type} {entries : Table (Data ε)} {allowed : List String}

theorem unknownKeys_eq_nil_iff :
    unknownKeys allowed entries = [] ↔ ∀ k ∈ entries.keys, k ∈ allowed := by
  unfold unknownKeys
  rw [List.filter_eq_nil_iff]
  simp

/-- A record is closed iff all of its keys are allowed. -/
theorem closed_eq_ok_iff [HasKind ε] {u : Unit} :
    closed allowed entries = .ok u ↔ ∀ k ∈ entries.keys, k ∈ allowed := by
  rw [← unknownKeys_eq_nil_iff]
  unfold closed
  cases unknownKeys allowed entries <;> simp

end Record

end Bestiary
