import Bestiary.Data.Merge
import Bestiary.Proofs.Data.Reordered

/-!
# What overlays hold

What an overlay holds under a key depends only on what its parts hold under that key.

* `Value.get?_overlay` says what it holds. No key comes twice (`Data.WellKeyed.mergeOnto`).
* `Value.Reordered.overlay`: parts with their keys in another order give an overlay with its keys
  in another order.
* `Table.AgreeBut.overlay`: parts that agree except under one key give overlays that do.
-/

namespace Bestiary

namespace Value

/-! ## Looking entries up -/

/-- **An overlay holds under a key** what is laid over it, merged with what was there. -/
theorem get?_overlay (base : Table Value) {t : Table Value} (ht : t.keys.Nodup) (key : String) :
    (overlay base t).get? key =
      match t.get? key with
      | some v => some (mergeOnto (base.get? key) v)
      | none => base.get? key := by
  induction t generalizing base with
  | nil => rw [overlay, Table.get?_nil]
  | cons e t ih =>
    obtain ⟨k, v⟩ := e
    rw [Table.keys_cons, List.nodup_cons] at ht
    rw [overlay_cons, ih _ ht.2, Table.get?_cons, Table.get?_set]
    by_cases hk : k = key
    · subst hk
      rw [Table.get?_eq_none_iff.mpr ht.1, if_pos rfl, if_pos rfl]
    · rw [if_neg hk, if_neg hk]

theorem nodup_keys_overlay {base : Table Value} (h : base.keys.Nodup) (t : Table Value) :
    (overlay base t).keys.Nodup := by
  induction t generalizing base with
  | nil =>
    rw [overlay]
    exact h
  | cons e t ih =>
    rw [overlay_cons]
    exact ih (Table.nodup_keys_set h _ _)

/-- Only tables merge. -/
theorem mergeOnto_of_table?_eq_none (o : Option Value) {v : Value} (h : v.table? = none) :
    mergeOnto o v = v := by
  cases v with
  | table t => exact absurd h (by simp [Data.table?])
  | _ =>
    cases o with
    | none =>
      rw [mergeOnto]
      simp
    | some base =>
      cases base <;>
        · rw [mergeOnto]
          simp

theorem mergeOnto_table (o : Option Value) (t : Table Value) :
    mergeOnto o (.table t) = (o.bind Data.table?).elim (.table t) fun base =>
      .table (overlay base t) := by
  cases o with
  | none => simp [mergeOnto]
  | some base => cases base <;> simp [mergeOnto, Data.table?]

/-- A value that may be absent gives a table iff it is that table. -/
theorem bind_table?_eq_some_iff {o : Option Value} {t : Table Value} :
    o.bind Data.table? = some t ↔ o = some (.table t) := by
  cases o with
  | none => simp
  | some v => cases v <;> simp [Data.table?]

end Value

/-- What is laid over a value has no key twice if neither part has. -/
theorem Data.WellKeyed.mergeOnto {o : Option Value} {v : Value}
    (ho : ∀ base, o = some base → base.WellKeyed) (hv : v.WellKeyed) :
    (Value.mergeOnto o v).WellKeyed := by
  induction v using Data.induction generalizing o with
  | table t ih =>
    rw [Value.mergeOnto_table]
    cases hbase : o.bind Data.table? with
    | none => exact hv
    | some base =>
      have hkeyed := ho _ (Value.bind_table?_eq_some_iff.mp hbase)
      have hnodup := Value.nodup_keys_overlay (Data.wellKeyed_table_iff.mp hkeyed).1 t
      rw [Option.elim_some, Data.wellKeyed_table_iff]
      refine ⟨hnodup, fun e he => ?_⟩
      have hget := Table.get?_of_mem hnodup he
      rw [Value.get?_overlay base (Data.wellKeyed_table_iff.mp hv).1] at hget
      cases hent : t.get? e.1 with
      | none =>
        rw [hent] at hget
        exact hkeyed.get? hget
      | some w =>
        rw [hent] at hget
        rw [← Option.some.inj hget]
        exact ih _ (Table.mem_of_get? hent) (fun _ hb => hkeyed.get? hb) (hv.get? hent)
  | _ =>
    rw [Value.mergeOnto_of_table?_eq_none o rfl]
    exact hv

namespace Value

namespace Reordered

/-- Two values that may be absent are both tables, or neither is. -/
theorem bind_table? {o o' : Option Value} (h : Option.Rel Reordered o o') :
    (o.bind Data.table? = none ∧ o'.bind Data.table? = none) ∨
      ∃ t t', o = some (.table t) ∧ o' = some (.table t') ∧ Reordered (.table t) (.table t') := by
  obtain hvw | _ := h
  · obtain ⟨_, _, rfl, rfl, -⟩ | ⟨t, t', rfl, rfl⟩ | ⟨-, htable, rfl⟩ := hvw.cases
    · exact .inl ⟨rfl, rfl⟩
    · exact .inr ⟨t, t', rfl, rfl, hvw⟩
    · exact .inl ⟨htable, htable⟩
  · exact .inl ⟨rfl, rfl⟩

/-- **Parts with their keys in another order give overlays that are the same.** -/
theorem same_mergeOnto {o o' : Option Value} {v v' : Value} (ho : Option.Rel Reordered o o')
    (h : Reordered v v') : Value.same (mergeOnto o v) (mergeOnto o' v') = true := by
  induction v using Data.induction generalizing o o' v' with
  | table t ih =>
    obtain ⟨t', rfl⟩ := h.exists_table
    rw [mergeOnto_table, mergeOnto_table]
    obtain ⟨hnone, hnone'⟩ | ⟨b, b', rfl, rfl, hb⟩ := bind_table? ho
    · rw [hnone, hnone']
      exact h.same
    · change Value.same (.table (Value.overlay b t)) (.table (Value.overlay b' t')) = true
      rw [same_table_iff_agree (nodup_keys_overlay hb.nodup t)
        (nodup_keys_overlay hb.symm.nodup t')]
      intro key
      rw [get?_overlay b h.nodup, get?_overlay b' h.symm.nodup]
      obtain ⟨ht, ht'⟩ | ⟨w, w', ht, ht', hww'⟩ := h.get? key
      · rw [ht, ht']
        exact agree_get? hb.nodup hb.same key
      · rw [ht, ht']
        exact ih _ (Table.mem_of_get? ht) (hb.get?_rel key) hww'
  | list items ih =>
    obtain ⟨items', rfl, -⟩ := h.exists_list
    rw [mergeOnto_of_table?_eq_none o rfl, mergeOnto_of_table?_eq_none o' rfl]
    exact h.same
  | alien e => exact e.elim
  | _ =>
    obtain rfl := h.eq_of_leaf rfl rfl
    rw [mergeOnto_of_table?_eq_none o rfl, mergeOnto_of_table?_eq_none o' rfl]
    exact h.same

theorem overlay {b b' t t' : Table Value} (hb : Reordered (.table b) (.table b'))
    (h : Reordered (.table t) (.table t')) :
    Reordered (.table (Value.overlay b t)) (.table (Value.overlay b' t')) := by
  have hmerge : ∀ b t : Table Value,
      mergeOnto (some (.table b)) (.table t) = .table (Value.overlay b t) :=
    fun b t => mergeOnto_table (some (.table b)) t
  have hkeyed : ∀ {b t : Table Value}, Data.WellKeyed (.table b) → Data.WellKeyed (.table t) →
      Data.WellKeyed (.table (Value.overlay b t)) := by
    intro b t hb ht
    rw [← hmerge]
    refine Data.WellKeyed.mergeOnto ?_ ht
    rintro _ ⟨⟩
    exact hb
  refine ⟨hkeyed hb.keyed h.keyed, hkeyed hb.keyed' h.keyed', ?_⟩
  rw [← hmerge, ← hmerge]
  exact same_mergeOnto (.some hb) h

end Reordered

end Value

namespace Table.AgreeBut

variable {free : String} {base base' : Table Value}

/-- The same entries laid over tables that agree. -/
theorem overlay (h : base.AgreeBut free base') (t : Table Value) :
    AgreeBut free (Value.overlay base t) (Value.overlay base' t) := by
  induction t generalizing base base' with
  | nil =>
    rw [Value.overlay, Value.overlay]
    exact h
  | cons e t ih =>
    obtain ⟨k, v⟩ := e
    rw [Value.overlay_cons, Value.overlay_cons]
    by_cases hk : k = free
    · subst hk
      exact ih (h.set_free _ _)
    · rw [h k hk]
      exact ih (h.set k _)

/-- Entries that differ under `free` laid over tables that agree. -/
theorem overlay_replace (h : base.AgreeBut free base') (t : Table Value) (v : Value) :
    AgreeBut free (Value.overlay base t) (Value.overlay base' (t.replace free v)) := by
  induction t generalizing base base' with
  | nil => exact h.overlay []
  | cons e t ih =>
    obtain ⟨k, w⟩ := e
    rw [Table.replace, Value.overlay_cons]
    by_cases hk : k = free
    · subst hk
      rw [if_pos rfl, Value.overlay_cons]
      exact (h.set_free _ _).overlay t
    · rw [if_neg hk, Value.overlay_cons, h k hk]
      exact ih (h.set k _)

end Table.AgreeBut

end Bestiary
