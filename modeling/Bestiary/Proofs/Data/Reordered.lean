import Bestiary.Data.Display
import Bestiary.Proofs.Data.Equal

/-!
# Values with their keys in another order

One value is another with its keys in another order, at any depth, and no key comes twice. What can
be said of the parts of both:

* `Value.Reordered.cases`: both are lists, both are tables, or they are one and the same leaf.
* `Value.Reordered.get?` and `Value.Reordered.set`: the same is found under a key, and may be
  written to it.
* `Value.Reordered.exists_paired`: the entries are the same, in another order.
-/

namespace Bestiary.Value

/-- One value is the other with its keys in another order, at any depth. No key comes twice. -/
structure Reordered (v w : Value) : Prop where
  keyed : v.WellKeyed
  keyed' : w.WellKeyed
  same : same v w = true

namespace Reordered

variable {v w : Value} {t u : Table Value} {key : String}

theorem refl (hv : v.WellKeyed) : Reordered v v := ⟨hv, hv, same_refl hv⟩

theorem symm (h : Reordered v w) : Reordered w v :=
  ⟨h.keyed', h.keyed, same_symm h.keyed h.keyed' h.same⟩

theorem nodup (h : Reordered (.table t) (.table u)) : t.keys.Nodup :=
  (Data.wellKeyed_table_iff.mp h.keyed).1

/-- A list has its items, reordered, in the same places. -/
theorem exists_list {items : List Value} (h : Reordered (.list items) w) :
    ∃ items', w = .list items' ∧ List.Forall₂ Reordered items items' := by
  obtain ⟨hv, hw, hsame⟩ := h
  obtain ⟨items', rfl, hitems⟩ := exists_of_list_same hsame
  rw [Data.wellKeyed_list_iff] at hv hw
  refine ⟨items', rfl, ?_⟩
  clear hsame
  induction hitems with
  | nil => exact .nil
  | cons hab _ ih =>
    rw [List.forall_mem_cons] at hv hw
    exact .cons ⟨hv.1, hw.1, hab⟩ (ih hv.2 hw.2)

theorem exists_table (h : Reordered (.table t) w) : ∃ u, w = .table u :=
  exists_of_table_same h.same

/-- A leaf has no keys. -/
theorem eq_of_leaf (h : Reordered v w) (hlist : v.list? = none) (htable : v.table? = none) :
    w = v := eq_of_leaf_same h.same hlist htable

/-- Both are lists, both are tables, or they are one and the same leaf. -/
theorem cases (h : Reordered v w) :
    (∃ items items', v = .list items ∧ w = .list items' ∧ List.Forall₂ Reordered items items') ∨
      (∃ t u, v = .table t ∧ w = .table u) ∨ v.list? = none ∧ v.table? = none ∧ w = v := by
  cases v with
  | list items =>
    obtain ⟨items', rfl, hitems⟩ := h.exists_list
    exact .inl ⟨items, items', rfl, rfl, hitems⟩
  | table t =>
    obtain ⟨u, rfl⟩ := h.exists_table
    exact .inr (.inl ⟨t, u, rfl, rfl⟩)
  | _ => exact .inr (.inr ⟨rfl, rfl, h.eq_of_leaf rfl rfl⟩)

/-! ## Leaves -/

theorem number?_eq (h : Reordered v w) : v.number? = w.number? := by
  obtain ⟨items, items', rfl, rfl, -⟩ | ⟨t, u, rfl, rfl⟩ | ⟨-, -, rfl⟩ := h.cases <;> rfl

theorem text?_eq (h : Reordered v w) : v.text? = w.text? := by
  obtain ⟨items, items', rfl, rfl, -⟩ | ⟨t, u, rfl, rfl⟩ | ⟨-, -, rfl⟩ := h.cases <;> rfl

/-! ## Tables -/

/-- Nothing is under a key of either table, or the same, reordered. -/
theorem get? (h : Reordered (.table t) (.table u)) (key : String) :
    (t.get? key = none ∧ u.get? key = none) ∨
      ∃ v w, t.get? key = some v ∧ u.get? key = some w ∧ Reordered v w := by
  have hagree := agree_get? h.nodup h.same key
  cases hv : t.get? key with
  | none =>
    rw [hv, agree_none_iff] at hagree
    exact .inl ⟨rfl, hagree⟩
  | some v =>
    rw [hv] at hagree
    obtain ⟨w, hw, hsame⟩ := agree_some_iff.mp hagree
    exact .inr ⟨v, w, rfl, hw, h.keyed.get? hv, h.keyed'.get? hw, hsame⟩

theorem get?_rel (h : Reordered (.table t) (.table u)) (key : String) :
    Option.Rel Reordered (t.get? key) (u.get? key) := by
  obtain ⟨ht, hu⟩ | ⟨v, w, ht, hu, hvw⟩ := h.get? key <;> rw [ht, hu]
  · exact .none
  · exact .some hvw

/-- What is under a key of one table is under that key of the other, reordered. -/
theorem exists_get? (h : Reordered (.table t) (.table u)) (hv : t.get? key = some v) :
    ∃ w, u.get? key = some w ∧ Reordered v w := by
  obtain ⟨hnone, -⟩ | ⟨_, w, hv', hw, hvw⟩ := h.get? key
  · exact absurd (hv.symm.trans hnone) (by simp)
  · obtain rfl := Option.some.inj (hv.symm.trans hv')
    exact ⟨w, hw, hvw⟩

theorem has_eq (h : Reordered (.table t) (.table u)) (key : String) : t.has key = u.has key := by
  unfold Table.has
  obtain ⟨ht, hu⟩ | ⟨_, _, ht, hu, -⟩ := h.get? key <;> rw [ht, hu]
  rfl

/-- The keys of one table are those of the other, in another order. -/
theorem keys_perm (h : Reordered (.table t) (.table u)) : t.keys.Perm u.keys :=
  (List.perm_ext_iff_of_nodup h.nodup h.symm.nodup).mpr (mem_keys_of_same h.nodup h.same)

/-- Keys that are allowed in one table are allowed in the other. -/
theorem closed (h : Reordered (.table t) (.table u)) {allowed : List String}
    (hclosed : ∀ k ∈ t.keys, k ∈ allowed) : ∀ k ∈ u.keys, k ∈ allowed :=
  fun k hk => hclosed k (h.keys_perm.mem_iff.mpr hk)

/-- The same is written to both tables. -/
theorem set (h : Reordered (.table t) (.table u)) (hvw : Reordered v w) (key : String) :
    Reordered (.table (t.set key v)) (.table (u.set key w)) := by
  refine ⟨h.keyed.set hvw.keyed key, h.keyed'.set hvw.keyed' key, ?_⟩
  rw [same_table_iff_agree (Table.nodup_keys_set h.nodup key v)
    (Table.nodup_keys_set h.symm.nodup key w)]
  intro k
  rw [Table.get?_set, Table.get?_set]
  split
  · exact hvw.same
  · exact agree_get? h.nodup h.same k

/-- **The entries of one table are those of the other**, reordered, in another order. -/
theorem exists_paired (h : Reordered (.table t) (.table u)) :
    ∃ u' : Table Value, t.Paired Reordered u' ∧ u'.Perm u := by
  have hpaired : ∀ s : Table Value, (∀ e ∈ s, e ∈ t) →
      ∃ u' : Table Value, s.Paired Reordered u' ∧ ∀ e ∈ u', e ∈ u := by
    intro s hs
    induction s with
    | nil => exact ⟨[], .nil, fun _ he => absurd he List.not_mem_nil⟩
    | cons e s ih =>
      rw [List.forall_mem_cons] at hs
      obtain ⟨w, hw, hew⟩ := h.exists_get? (Table.get?_of_mem h.nodup hs.1)
      obtain ⟨u', hpaired, hsub⟩ := ih hs.2
      exact ⟨(e.1, w) :: u', .cons ⟨rfl, hew⟩ hpaired,
        List.forall_mem_cons.mpr ⟨Table.mem_of_get? hw, hsub⟩⟩
  obtain ⟨u', hpaired, hsub⟩ := hpaired t fun _ he => he
  have hkeys := h.nodup
  rw [hpaired.keys_eq] at hkeys
  refine ⟨u', hpaired, (List.subperm_of_subset hkeys.of_map hsub).perm_of_length_le ?_⟩
  rw [← List.Forall₂.length_eq hpaired]
  exact Nat.le_of_eq (same_table_iff.mp h.same).1.symm

end Reordered

/-! ## Showing values -/

/-- A list can be shown iff each item can. -/
theorem isShowable_list_iff {items : List Value} :
    isShowable (.list items) = true ↔ ∀ v ∈ items, isShowable v = true := by
  rw [isShowable, display?, Option.isSome_map]
  induction items with
  | nil => simp [displayItems?]
  | cons v items ih =>
    rw [List.forall_mem_cons, ← ih, displayItems?, isShowable]
    cases display? v <;> simp

/-- Whether a value can be shown does not depend on the order of keys. -/
theorem Reordered.isShowable_eq {v w : Value} (h : Reordered v w) :
    v.isShowable = w.isShowable := by
  induction v using Data.induction generalizing w with
  | list items ih =>
    obtain ⟨items', rfl, hitems⟩ := h.exists_list
    rw [Bool.eq_iff_iff, isShowable_list_iff, isShowable_list_iff]
    clear h
    induction hitems with
    | nil => rfl
    | cons hab _ ihitems =>
      rw [List.forall_mem_cons] at ih
      rw [List.forall_mem_cons, List.forall_mem_cons, ih.1 hab, ihitems ih.2]
  | table t ih =>
    obtain ⟨u, rfl⟩ := h.exists_table
    rw [isShowable, isShowable, display?, display?, h.has_eq displayKey]
  | _ => rw [h.eq_of_leaf rfl rfl]

end Bestiary.Value
