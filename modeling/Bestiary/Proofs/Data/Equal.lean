import Bestiary.Data.Equal
import Bestiary.Proofs.Data.Keyed
import Mathlib.Data.List.Perm.Subperm

/-!
# Values that are the same

What the decision whether two values are equal up to the order of keys comes to.

* `Value.sameItems_iff` and `Value.sameEntries_iff` read the decision item by item and entry by
  entry.
* `Value.agree_get?`: tables that are the same have the same under each key.
* `Value.same_table_of_get?`: tables with the same keys and the same under each are the same.
* `Value.same_refl`, `Value.same_symm` and `Value.same_trans`: on values without a key twice to be
  the same is an equivalence.
-/

namespace Bestiary.Value

attribute [local simp] same sameItems sameEntries

theorem sameItems_iff {as bs : List Value} :
    sameItems as bs = true ↔ List.Forall₂ (fun a b => same a b = true) as bs := by
  induction as generalizing bs with
  | nil => cases bs <;> simp
  | cons a as ih => cases bs <;> simp [ih]

theorem sameEntries_iff {entries t : Table Value} :
    sameEntries entries t = true ↔
      ∀ e ∈ entries, ∃ w, t.get? e.1 = some w ∧ same e.2 w = true := by
  induction entries with
  | nil => simp
  | cons e entries ih =>
    obtain ⟨k, v⟩ := e
    rw [sameEntries, List.forall_mem_cons, Bool.and_eq_true, ih]
    refine and_congr_left fun _ => ?_
    cases t.get? k <;> simp

theorem same_table_iff {t u : Table Value} :
    same (.table t) (.table u) = true ↔
      t.length = u.length ∧ ∀ e ∈ t, ∃ w, u.get? e.1 = some w ∧ same e.2 w = true := by
  rw [same, Bool.and_eq_true, decide_eq_true_iff, sameEntries_iff]

/-- If each entry of a table has its counterpart in another, so has each key. -/
theorem keys_subset_of_entries {t u : Table Value}
    (h : ∀ e ∈ t, ∃ w, u.get? e.1 = some w ∧ same e.2 w = true) : t.keys ⊆ u.keys := by
  intro k hk
  obtain ⟨v, hv⟩ := Table.mem_keys_iff.mp hk
  obtain ⟨w, hw, -⟩ := h _ (Table.mem_of_get? hv)
  exact Table.mem_keys_iff.mpr ⟨w, hw⟩

/-- Tables that are the same have the same keys. -/
theorem mem_keys_of_same {t u : Table Value} (ht : t.keys.Nodup)
    (h : same (.table t) (.table u) = true) (key : String) : key ∈ t.keys ↔ key ∈ u.keys := by
  obtain ⟨hlen, hentries⟩ := same_table_iff.mp h
  have hsub : t.keys ⊆ u.keys := keys_subset_of_entries hentries
  have hperm : t.keys.Perm u.keys := by
    refine (List.subperm_of_subset ht hsub).perm_of_length_le ?_
    unfold Table.keys
    rw [List.length_map, List.length_map]
    exact Nat.le_of_eq hlen.symm
  exact hperm.mem_iff

/-- **Tables that are the same have the same under each key.** -/
theorem agree_get? {t u : Table Value} (ht : t.keys.Nodup)
    (h : same (.table t) (.table u) = true) (key : String) :
    agree (t.get? key) (u.get? key) = true := by
  have hkeys := mem_keys_of_same ht h key
  cases hv : t.get? key with
  | none =>
    rw [Table.get?_eq_none_iff, hkeys, ← Table.get?_eq_none_iff] at hv
    rw [hv]
    rfl
  | some v =>
    obtain ⟨w, hw, hsame⟩ := (same_table_iff.mp h).2 _ (Table.mem_of_get? hv)
    rw [hw]
    exact hsame

/-- Tables with the same keys and the same under each are the same. -/
theorem same_table_of_get? {t u : Table Value} (ht : t.keys.Nodup) (hu : u.keys.Nodup)
    (hkeys : ∀ k ∈ u.keys, k ∈ t.keys)
    (hentries : ∀ e ∈ t, ∃ w, u.get? e.1 = some w ∧ same e.2 w = true) :
    same (.table t) (.table u) = true := by
  have hsub : t.keys ⊆ u.keys := keys_subset_of_entries hentries
  have hperm : t.keys.Perm u.keys :=
    (List.subperm_of_subset ht hsub).antisymm (List.subperm_of_subset hu hkeys)
  refine same_table_iff.mpr ⟨?_, hentries⟩
  have hlen := hperm.length_eq
  unfold Table.keys at hlen
  rw [List.length_map, List.length_map] at hlen
  exact hlen

/-- **A value without a key twice is the same as itself.** -/
theorem same_refl {v : Value} (hv : v.WellKeyed) : same v v = true := by
  induction v using Data.induction with
  | list items ih =>
    rw [Data.wellKeyed_list_iff] at hv
    rw [same, sameItems_iff, List.forall₂_same]
    exact fun d hd => ih d hd (hv d hd)
  | table entries ih =>
    rw [Data.wellKeyed_table_iff] at hv
    exact same_table_of_get? hv.1 hv.1 (fun _ hk => hk) fun e he =>
      ⟨e.2, Table.get?_of_mem hv.1 he, ih e he (hv.2 e he)⟩
  | alien e => exact e.elim
  | _ => simp

theorem agree_some_iff {v : Value} {o : Option Value} :
    agree (some v) o = true ↔ ∃ w, o = some w ∧ same v w = true := by
  cases o <;> simp [agree]

theorem agree_none_iff {o : Option Value} : agree none o = true ↔ o = none := by
  cases o <;> simp [agree]

theorem agree_iff_rel {o o' : Option Value} :
    agree o o' = true ↔ Option.Rel (fun v w => same v w = true) o o' := by
  constructor
  · intro h
    cases o with
    | none =>
      rw [agree_none_iff.mp h]
      exact .none
    | some v =>
      obtain ⟨w, rfl, hsame⟩ := agree_some_iff.mp h
      exact .some hsame
  · rintro (h | _)
    · exact h
    · rfl

/-- **Tables without a key twice are the same iff they have the same under each key.** -/
theorem same_table_iff_agree {t u : Table Value} (ht : t.keys.Nodup) (hu : u.keys.Nodup) :
    same (.table t) (.table u) = true ↔ ∀ key, agree (t.get? key) (u.get? key) = true := by
  refine ⟨agree_get? ht, fun h => same_table_of_get? ht hu (fun k hk => ?_) fun e he => ?_⟩
  · obtain ⟨w, hw⟩ := Table.mem_keys_iff.mp hk
    cases hv : t.get? k with
    | none =>
      have hagree := h k
      rw [hv, agree_none_iff, hw] at hagree
      exact absurd hagree (by simp)
    | some v => exact Table.mem_keys_iff.mpr ⟨v, hv⟩
  · have hagree := h e.1
    rw [Table.get?_of_mem ht he] at hagree
    exact agree_some_iff.mp hagree

/-- What is the same as a list is a list. -/
theorem exists_of_list_same {items : List Value} {w : Value} (h : same (.list items) w = true) :
    ∃ items', w = .list items' ∧ List.Forall₂ (fun a b => same a b = true) items items' := by
  cases w with
  | list items' =>
    rw [same, sameItems_iff] at h
    exact ⟨items', rfl, h⟩
  | _ => exact absurd h (by simp)

/-- What is the same as a table is a table. -/
theorem exists_of_table_same {t : Table Value} {w : Value} (h : same (.table t) w = true) :
    ∃ t', w = .table t' := by
  cases w with
  | table t' => exact ⟨t', rfl⟩
  | _ => exact absurd h (by simp)

/-- Leaves that are the same are equal. -/
theorem eq_of_leaf_same {v w : Value} (h : same v w = true) (hlist : v.list? = none)
    (htable : v.table? = none) : w = v := by
  cases v <;> cases w <;> simp_all [Data.list?, Data.table?]

/-- **Of two values that are the same, either is the same as the other.** -/
theorem same_symm {v w : Value} (hv : v.WellKeyed) (hw : w.WellKeyed) (h : same v w = true) :
    same w v = true := by
  induction v using Data.induction generalizing w with
  | list items ih =>
    obtain ⟨items', rfl, hitems⟩ := exists_of_list_same h
    rw [Data.wellKeyed_list_iff] at hv hw
    rw [same, sameItems_iff]
    clear h
    induction hitems with
    | nil => exact .nil
    | cons hab _ ihitems =>
      rw [List.forall_mem_cons] at hv hw ih
      exact .cons (ih.1 hv.1 hw.1 hab) (ihitems ih.2 hv.2 hw.2)
  | table t ih =>
    obtain ⟨u, rfl⟩ := exists_of_table_same h
    have ht := (Data.wellKeyed_table_iff.mp hv).1
    have hu := (Data.wellKeyed_table_iff.mp hw).1
    rw [same_table_iff_agree hu ht]
    intro key
    have hagree := agree_get? ht h key
    cases hget : t.get? key with
    | none =>
      rw [hget, agree_none_iff] at hagree
      rw [hagree]
      rfl
    | some a =>
      rw [hget] at hagree
      obtain ⟨b, hb, hab⟩ := agree_some_iff.mp hagree
      rw [hb]
      exact ih _ (Table.mem_of_get? hget) (hv.get? hget) (hw.get? hb) hab
  | alien e => exact e.elim
  | _ =>
    obtain rfl := eq_of_leaf_same h rfl rfl
    exact h

/-- **What is the same as a value is the same as all that the value is the same as.** -/
theorem same_trans {u v w : Value} (huv : same u v = true) (hvw : same v w = true) :
    same u w = true := by
  induction u using Data.induction generalizing v w with
  | list items ih =>
    obtain ⟨items', rfl, hitems⟩ := exists_of_list_same huv
    obtain ⟨items'', rfl, hitems'⟩ := exists_of_list_same hvw
    rw [same, sameItems_iff]
    clear huv hvw
    induction hitems generalizing items'' with
    | nil =>
      cases hitems'
      exact .nil
    | cons hab _ ihitems =>
      obtain _ | ⟨hbc, hrest⟩ := hitems'
      rw [List.forall_mem_cons] at ih
      exact .cons (ih.1 hab hbc) (ihitems ih.2 _ hrest)
  | table t ih =>
    obtain ⟨t', rfl⟩ := exists_of_table_same huv
    obtain ⟨t'', rfl⟩ := exists_of_table_same hvw
    obtain ⟨hlen, hentries⟩ := same_table_iff.mp huv
    obtain ⟨hlen', hentries'⟩ := same_table_iff.mp hvw
    refine same_table_iff.mpr ⟨hlen.trans hlen', fun e he => ?_⟩
    obtain ⟨b, hb, hab⟩ := hentries e he
    obtain ⟨c, hc, hbc⟩ := hentries' _ (Table.mem_of_get? hb)
    exact ⟨c, hc, ih e he hab hbc⟩
  | alien e => exact e.elim
  | _ =>
    obtain rfl := eq_of_leaf_same huv rfl rfl
    exact hvw

end Bestiary.Value
