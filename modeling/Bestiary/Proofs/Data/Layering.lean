import Bestiary.Proofs.Data.Lookup

/-!
# Several values laid over one

When it does not matter in which order overrides are laid over a value, and when two overrides can
be merged into one first.

* `Value.Compatible` says that two overrides do not conflict; `Value.same_merge_merge_comm`: those
  commute.
* `Value.overlay_set`: to write into what is laid over a table is to write into the overlay.
* `Value.Bridges` says that a value holds nothing but tables between the tables of two others;
  `Value.merge_merge`: then it can be merged with either of them first.
* `Value.overlay_eq_self`: what is there already changes nothing when it is laid over a table, and
  so neither does an override that is laid over a value again (`Value.merge_merge_self`).
-/

namespace Bestiary.Value

/-! ## Overrides that do not conflict -/

/-- Two values do not conflict: they are the same, or tables that do not conflict under any key. -/
inductive Compatible : Value → Value → Prop
  | same {p q : Value} (h : Value.same p q = true) : Compatible p q
  | tables {t u : Table Value}
    (h : ∀ key v w, t.get? key = some v → u.get? key = some w → Compatible v w) :
    Compatible (.table t) (.table u)

namespace Compatible

variable {p q : Value} {t u : Table Value}

theorem exists_table (h : Compatible (.table t) q) : ∃ u, q = .table u := by
  cases h with
  | same h => exact exists_of_table_same h
  | tables h => exact ⟨_, rfl⟩

/-- Tables do not conflict if no entry of the one does with what the other has under its key. -/
theorem of_forall_mem (h : ∀ e ∈ t, ∀ w, u.get? e.1 = some w → Compatible e.2 w) :
    Compatible (.table t) (.table u) :=
  .tables fun _ _ w hv hw => h _ (Table.mem_of_get? hv) w hw

/-- Tables do not conflict under any key. -/
theorem get? (h : Compatible (.table t) (.table u)) (ht : t.keys.Nodup) {key : String}
    {v w : Value} (hv : t.get? key = some v) (hw : u.get? key = some w) : Compatible v w := by
  cases h with
  | same h =>
    have hagree := agree_get? ht h key
    rw [hv, hw] at hagree
    exact .same hagree
  | tables h => exact h key v w hv hw

theorem same_of_not_table (h : Compatible p q) (hp : p.table? = none) :
    Value.same p q = true ∧ q.table? = none := by
  cases h with
  | same h =>
    refine ⟨h, ?_⟩
    cases q with
    | table u => cases p <;> simp_all [Value.same, Data.table?]
    | _ => rfl
  | tables h => exact absurd hp (by simp [Data.table?])

end Compatible

theorem isTable_mergeOnto (o : Option Value) (v : Value) : (mergeOnto o v).isTable = v.isTable := by
  cases v with
  | table t =>
    rw [mergeOnto_table]
    cases o.bind Data.table? <;> rfl
  | _ => rw [mergeOnto_of_table?_eq_none o rfl]

/-- Tables are the same if they have the same under each key. -/
theorem same_of_field? {v w : Value} (hv : v.WellKeyed) (hw : w.WellKeyed)
    (htable : v.isTable = true) (htable' : w.isTable = true)
    (h : ∀ key, agree (v.field? key) (w.field? key) = true) : Value.same v w = true := by
  cases v with
  | table t =>
    cases w with
    | table u =>
      exact (same_table_iff_agree (Data.wellKeyed_table_iff.mp hv).1
        (Data.wellKeyed_table_iff.mp hw).1).mpr h
    | _ => exact absurd htable' (by simp [Data.isTable, Data.table?])
  | _ => exact absurd htable (by simp [Data.isTable, Data.table?])

theorem agree_refl {o : Option Value} (h : ∀ v, o = some v → v.WellKeyed) : agree o o = true := by
  cases o with
  | none => rfl
  | some v => exact same_refl (h v rfl)

/-- What may be absent has, if it is there, no key twice. -/
theorem wellKeyed_bind_field? {o : Option Value} (h : ∀ v, o = some v → v.WellKeyed)
    (key : String) : ∀ v, o.bind (·.field? key) = some v → v.WellKeyed := by
  intro v hv
  obtain ⟨w, rfl, hw⟩ := Option.bind_eq_some_iff.mp hv
  exact wellKeyed_of_field? (h w rfl) hw

/-- Overrides that do not conflict may be laid over what is there, or over nothing, in either
order. -/
theorem same_mergeOnto_mergeOnto {o : Option Value} {p q : Value}
    (ho : ∀ v, o = some v → v.WellKeyed) (hp : p.WellKeyed) (hq : q.WellKeyed)
    (h : Compatible p q) :
    Value.same (mergeOnto (some (mergeOnto o p)) q) (mergeOnto (some (mergeOnto o q)) p) =
      true := by
  induction p using Data.induction generalizing o q with
  | table t ih =>
    obtain ⟨u, rfl⟩ := h.exists_table
    have hpq : (mergeOnto (some (mergeOnto o (.table t))) (.table u)).WellKeyed := by
      refine Data.WellKeyed.mergeOnto ?_ hq
      rintro _ ⟨⟩
      exact Data.WellKeyed.mergeOnto ho hp
    have hqp : (mergeOnto (some (mergeOnto o (.table u))) (.table t)).WellKeyed := by
      refine Data.WellKeyed.mergeOnto ?_ hp
      rintro _ ⟨⟩
      exact Data.WellKeyed.mergeOnto ho hq
    refine same_of_field? hpq hqp (isTable_mergeOnto _ _) (isTable_mergeOnto _ _) fun key => ?_
    have hbase := wellKeyed_bind_field? ho key
    -- An entry of one override alone is laid over the same thing in both orders.
    cases hv : (Data.table t).field? key with
    | none =>
      have hfirst := field?_mergeOnto_of_absent o hp hv
      rw [field?_mergeOnto_of_absent _ hp hv]
      cases hw : (Data.table u).field? key with
      | none =>
        rw [field?_mergeOnto_of_absent _ hq hw, Option.bind_some, Option.bind_some, hfirst,
          field?_mergeOnto_of_absent _ hq hw]
        exact agree_refl hbase
      | some w =>
        rw [field?_mergeOnto_of_field? _ hq hw, Option.bind_some, Option.bind_some, hfirst,
          field?_mergeOnto_of_field? _ hq hw]
        exact same_refl (Data.WellKeyed.mergeOnto hbase (wellKeyed_of_field? hq hw))
    | some v =>
      have hfirst := field?_mergeOnto_of_field? o hp hv
      rw [field?_mergeOnto_of_field? _ hp hv]
      cases hw : (Data.table u).field? key with
      | none =>
        rw [field?_mergeOnto_of_absent _ hq hw, Option.bind_some, Option.bind_some, hfirst,
          field?_mergeOnto_of_absent _ hq hw]
        exact same_refl (Data.WellKeyed.mergeOnto hbase (wellKeyed_of_field? hp hv))
      | some w =>
        rw [field?_mergeOnto_of_field? _ hq hw, Option.bind_some, Option.bind_some, hfirst,
          field?_mergeOnto_of_field? _ hq hw]
        exact ih _ (Table.mem_of_get? hv) hbase (wellKeyed_of_field? hp hv)
          (wellKeyed_of_field? hq hw) (h.get? (Data.wellKeyed_table_iff.mp hp).1 hv hw)
  | _ =>
    obtain ⟨hsame, htable⟩ := h.same_of_not_table rfl
    rw [mergeOnto_of_table?_eq_none _ htable, mergeOnto_of_table?_eq_none _ rfl]
    exact same_symm hp hq hsame

/-- **Overrides that do not conflict commute.** -/
theorem same_merge_merge_comm {b p q : Value} (hb : b.WellKeyed) (hp : p.WellKeyed)
    (hq : q.WellKeyed) (h : Compatible p q) :
    Value.same (merge (merge b p) q) (merge (merge b q) p) = true := by
  refine same_mergeOnto_mergeOnto ?_ hp hq h
  rintro _ ⟨⟩
  exact hb

/-- A mob with a picture, one limb and a size. -/
def drawn : Value :=
  .table [("sprite", .text "moth.png"), ("limbs", .table [("left", .natural 1)]),
    ("size", .list [.natural 1, .natural 1])]

/-- A patch that makes the sprite a table and adds a limb. -/
def animated : Value :=
  .table [("sprite", .table [("frame", .natural 2), ("sheet", .text "moths.png")]),
    ("limbs", .table [("right", .natural 2)]), ("size", .list [.natural 3, .natural 4])]

/-- A patch that agrees with the first about the frame and the size, and adds another limb. -/
def tailed : Value :=
  .table [("size", .list [.natural 3, .natural 4]), ("limbs", .table [("tail", .natural 3)]),
    ("sprite", .table [("speed", .natural 5), ("frame", .natural 2)])]

theorem same_merge_merge_comm_drawn :
    drawn.WellKeyed ∧ animated.WellKeyed ∧ tailed.WellKeyed ∧ Compatible animated tailed ∧
      Value.same (merge (merge drawn animated) tailed) (merge (merge drawn tailed) animated) =
        true := by
  have hkeyed : drawn.WellKeyed ∧ animated.WellKeyed ∧ tailed.WellKeyed := by
    simp [drawn, animated, tailed, Data.WellKeyed, Data.ItemsWellKeyed, Data.EntriesWellKeyed,
      Data.natural]
  have hcompatible : Compatible animated tailed := by
    refine .of_forall_mem (List.forall_mem_cons.mpr ⟨?_, List.forall_mem_cons.mpr
      ⟨?_, List.forall_mem_singleton.mpr ?_⟩⟩)
    · rintro _ ⟨⟩
      refine .of_forall_mem (List.forall_mem_cons.mpr ⟨?_, List.forall_mem_singleton.mpr ?_⟩)
      · rintro _ ⟨⟩
        exact .same (by simp [Value.same, Data.natural])
      · rintro _ ⟨⟩
    · rintro _ ⟨⟩
      refine .of_forall_mem (List.forall_mem_singleton.mpr ?_)
      rintro _ ⟨⟩
    · rintro _ ⟨⟩
      exact .same (by simp [Value.same, Value.sameItems, Data.natural])
  exact ⟨hkeyed.1, hkeyed.2.1, hkeyed.2.2, hcompatible,
    same_merge_merge_comm hkeyed.1 hkeyed.2.1 hkeyed.2.2 hcompatible⟩

/-! ## Overrides that are merged first -/

variable {a b c : Table Value} {k : String}

/-- A write under a key that is not laid over the table may come first, unless it adds a key to the
end. -/
theorem set_overlay (hb : k ∉ b.keys) (ha : k ∈ a.keys ∨ ∃ i, arrayIndex? k = some i) (x : Value) :
    (overlay a b).set k x = overlay (a.set k x) b := by
  induction b generalizing a with
  | nil => rw [overlay, overlay]
  | cons e b ih =>
    obtain ⟨k', v⟩ := e
    rw [Table.keys_cons, List.mem_cons, not_or] at hb
    have hget : (a.set k x).get? k' = a.get? k' := by rw [Table.get?_set, if_neg hb.1]
    rw [overlay_cons, overlay_cons, hget,
      ih hb.2 (ha.imp_left fun ha => Table.mem_keys_set.mpr (.inr ha)),
      Table.set_set_comm hb.1 ha]

/-- **To write into what is laid over a table is to write into the overlay.** -/
theorem overlay_set (hb : b.keys.Nodup) (x : Value) :
    overlay a (b.set k x) = (overlay a b).set k (mergeOnto (a.get? k) x) := by
  induction b generalizing a with
  | nil =>
    have hnil : Table.set [] k x = [(k, x)] := rfl
    rw [hnil, overlay_cons, overlay, overlay]
  | cons e b ih =>
    obtain ⟨k₀, v⟩ := e
    rw [Table.keys_cons, List.nodup_cons] at hb
    by_cases hk : k₀ = k
    · subst hk
      have hset : Table.set ((k₀, v) :: b) k₀ x = (k₀, x) :: b := by
        rw [Table.set_of_mem List.mem_cons_self, Table.replace, if_pos rfl]
      have hmem : k₀ ∈ (a.set k₀ (mergeOnto (a.get? k₀) v)).keys :=
        Table.mem_keys_set.mpr (.inl rfl)
      rw [hset, overlay_cons, overlay_cons, set_overlay hb.1 (.inl hmem), Table.set_set]
    · have hget : ∀ y, (a.set k₀ y).get? k = a.get? k := fun y => by
        rw [Table.get?_set, if_neg hk]
      rw [Table.set_cons_of_ne hk]
      split
      · rw [overlay_cons, overlay_cons, ih hb.2, hget]
      · rename_i hlast
        rw [not_or] at hlast
        have hmem : k ∉ Table.keys ((k₀, v) :: b) := by simp [hlast.1, Ne.symm hk]
        rw [set_overlay hmem (.inr (Table.exists_index_of_not_standsBefore hlast.2)),
          overlay_cons a k]

/-- Between the tables that `a` and `c` have at the same path, `b` has a table or nothing. -/
def Bridges (b a c : Value) : Prop :=
  ∀ path, TablesAt a c path → ∀ v, b.at? path = some v → v.isTable = true

/-- What bridges two tables does so under each key. -/
theorem Bridges.field? {a b c a' b' c' : Value} (h : Bridges b a c) {key : String}
    (ha : a.field? key = some a') (hb : b.field? key = some b') (hc : c.field? key = some c') :
    Bridges b' a' c' := by
  rintro path ⟨t, u, ht, hu⟩ v hv
  refine h (key :: path) ⟨t, u, ?_, ?_⟩ v ?_
  · rw [at?_cons, ha, Option.bind_some, ht]
  · rw [at?_cons, hc, Option.bind_some, hu]
  · rw [at?_cons, hb, Option.bind_some, hv]

/-- Where one of the two is no table there is nothing to bridge. -/
theorem bridges_of_not_table {a b c : Value} (h : a.isTable = false ∨ c.isTable = false) :
    Bridges b a c := by
  rintro (_ | ⟨key, path⟩) ⟨t, u, ht, hu⟩ v -
  · obtain rfl := Option.some.inj ht
    obtain rfl := Option.some.inj hu
    exact absurd h (by simp [Data.isTable, Data.table?])
  · have htable : ∀ w : Value, w.isTable = false → w.field? key = none := fun w hw => by
      rw [Data.isTable, Option.isSome_eq_false_iff, Option.isNone_iff_eq_none] at hw
      rw [Data.field?, hw, Option.bind_none]
    rcases h with h | h
    · rw [at?_cons, htable a h] at ht
      exact absurd ht (by simp)
    · rw [at?_cons, htable c h] at hu
      exact absurd hu (by simp)

theorem bridges_table_iff : Bridges (.table b) (.table a) (.table c) ↔
    ∀ key x y z, a.get? key = some x → b.get? key = some y → c.get? key = some z →
      Bridges y x z := by
  constructor
  · exact fun h key x y z hx hy hz => h.field? hx hy hz
  · rintro h (_ | ⟨key, path⟩) ⟨t, u, ht, hu⟩ v hv
    · obtain rfl := Option.some.inj hv
      rfl
    · obtain ⟨x, hx, ht⟩ := Option.bind_eq_some_iff.mp ht
      obtain ⟨y, hy, hv⟩ := Option.bind_eq_some_iff.mp hv
      obtain ⟨z, hz, hu⟩ := Option.bind_eq_some_iff.mp hu
      exact h key x y z hx hy hz path ⟨t, u, ht, hu⟩ v hv

theorem bridges_of_forall_mem
    (h : ∀ e ∈ b, ∀ x z, a.get? e.1 = some x → c.get? e.1 = some z → Bridges e.2 x z) :
    Bridges (.table b) (.table a) (.table c) :=
  bridges_table_iff.mpr fun _ x _ z hx hy hz => h _ (Table.mem_of_get? hy) x z hx hz

/-- Entry by entry, so that the induction on what is laid on top may go on: the entries that are
laid over `b` first change it under other keys than those to come. -/
theorem overlay_overlay (hb : b.keys.Nodup) (hc : c.keys.Nodup)
    (h : ∀ key v w, c.get? key = some v → b.get? key = some w →
      mergeOnto (some (mergeOnto (a.get? key) w)) v =
        mergeOnto (a.get? key) (mergeOnto (some w) v)) :
    overlay (overlay a b) c = overlay a (overlay b c) := by
  induction c generalizing b with
  | nil => rw [overlay, overlay]
  | cons e c ih =>
    obtain ⟨k, v⟩ := e
    rw [Table.keys_cons, List.nodup_cons] at hc
    have hstep : mergeOnto ((overlay a b).get? k) v =
        mergeOnto (a.get? k) (mergeOnto (b.get? k) v) := by
      rw [get?_overlay a hb]
      cases hw : b.get? k with
      | none => simp only [mergeOnto_none]
      | some w => exact h k v w (by rw [Table.get?_cons, if_pos rfl]) hw
    rw [overlay_cons, overlay_cons, hstep, ← overlay_set hb]
    refine ih (Table.nodup_keys_set hb _ _) hc.2 fun key v' w hv' hw => ?_
    have hne : k ≠ key := by
      rintro rfl
      exact hc.1 (Table.mem_keys_iff.mpr ⟨_, hv'⟩)
    rw [Table.get?_set, if_neg hne] at hw
    exact h key v' w (by rw [Table.get?_cons, if_neg hne, hv']) hw

theorem mergeOnto_mergeOnto {o : Option Value} {b c : Value} (hb : b.WellKeyed)
    (hc : c.WellKeyed) (h : ∀ a, o = some a → Bridges b a c) :
    mergeOnto (some (mergeOnto o b)) c = mergeOnto o (mergeOnto (some b) c) := by
  induction c using Data.induction generalizing o b with
  | table c ih =>
    cases b with
    | table b =>
      have hmerge : ∀ a, mergeOnto (some (.table a)) (.table c) = .table (overlay a c) :=
        fun a => mergeOnto_table (some (.table a)) c
      rw [hmerge, mergeOnto_table o, mergeOnto_table o]
      cases ho : o.bind Data.table? with
      | none => exact hmerge b
      | some a =>
        obtain rfl := bind_table?_eq_some_iff.mp ho
        rw [Option.elim_some, Option.elim_some, hmerge, overlay_overlay
          (Data.wellKeyed_table_iff.mp hb).1 (Data.wellKeyed_table_iff.mp hc).1]
        intro key v w hv hw
        exact ih _ (Table.mem_of_get? hv) (hb.get? hw) (hc.get? hv) fun a' ha' =>
          (h _ rfl).field? ha' hw hv
    | _ =>
      rw [mergeOnto_of_table?_eq_none o rfl, mergeOnto_of_not_tables (by simp),
        mergeOnto_of_not_tables]
      rintro t u rfl -
      exact absurd (h _ rfl [] ⟨t, c, rfl, rfl⟩ _ rfl) (by simp [Data.isTable, Data.table?])
  | _ =>
    rw [mergeOnto_of_table?_eq_none (some (mergeOnto o b)) rfl,
      mergeOnto_of_table?_eq_none (some b) rfl, mergeOnto_of_table?_eq_none o rfl]

/-- **Two overrides can be merged first** if the first holds nothing but tables between tables. -/
theorem merge_merge {a b c : Value} (hb : b.WellKeyed) (hc : c.WellKeyed) (h : Bridges b a c) :
    merge (merge a b) c = merge a (merge b c) := by
  refine mergeOnto_mergeOnto hb hc ?_
  rintro _ ⟨⟩
  exact h

/-- A mob with limbs and an animated sprite. -/
def winged : Value :=
  .table [("limbs", .table [("left", .natural 1), ("3", .natural 3)]),
    ("sprite", .table [("frame", .natural 2)])]

/-- A patch that has a picture in place of the sprite. -/
def still : Value :=
  .table [("sprite", .text "moth.png"),
    ("limbs", .table [("12", .natural 6), ("tail", .natural 4)])]

/-- A patch with another picture. -/
def repainted : Value :=
  .table [("size", .natural 5), ("limbs", .table [("left", .natural 7), ("7", .natural 8)]),
    ("sprite", .text "wing.png")]

theorem merge_merge_winged :
    still.WellKeyed ∧ repainted.WellKeyed ∧ Bridges still winged repainted ∧
      merge (merge winged still) repainted = merge winged (merge still repainted) := by
  have hkeyed : still.WellKeyed ∧ repainted.WellKeyed := by
    simp [still, repainted, Data.WellKeyed, Data.EntriesWellKeyed, Data.natural]
  have hbridges : Bridges still winged repainted := by
    refine bridges_of_forall_mem (List.forall_mem_cons.mpr ⟨?_, List.forall_mem_singleton.mpr ?_⟩)
    · rintro _ _ ⟨⟩ ⟨⟩
      exact bridges_of_not_table (.inr rfl)
    · rintro _ _ ⟨⟩ ⟨⟩
      refine bridges_of_forall_mem (List.forall_mem_cons.mpr ⟨?_, List.forall_mem_singleton.mpr ?_⟩)
      · rintro _ _ ⟨⟩
      · rintro _ _ ⟨⟩
  exact ⟨hkeyed.1, hkeyed.2, hbridges, merge_merge hkeyed.1 hkeyed.2 hbridges⟩

/-- A picture between two tables separates them: the frame of the first is gone for good. -/
example : let animated : Value := .table [("sprite", .table [("speed", .natural 5)])]
    (merge (merge winged still) animated).at? ["sprite", "frame"] = none ∧
      (merge winged (merge still animated)).at? ["sprite", "frame"] = some (.natural 2) :=
  ⟨rfl, rfl⟩

/-! ## One override, laid over a value again -/

/-- Entries whose overlay is there already leave a table as it is. -/
theorem overlay_eq_self (h : ∀ e ∈ b, a.get? e.1 = some (mergeOnto (a.get? e.1) e.2)) :
    overlay a b = a := by
  induction b with
  | nil => rw [overlay]
  | cons e b ih =>
    obtain ⟨k, v⟩ := e
    rw [List.forall_mem_cons] at h
    rw [overlay_cons, Table.set_eq_self h.1, ih h.2]

/-- What is laid over something stays when it is laid over the result: each entry of a table is by
then there, laid over whatever was under its key. -/
theorem mergeOnto_mergeOnto_self (o : Option Value) {v : Value} (hv : v.WellKeyed) :
    mergeOnto (some (mergeOnto o v)) v = mergeOnto o v := by
  induction v using Data.induction generalizing o with
  | table t ih =>
    obtain ⟨m, hm⟩ : ∃ m : Table Value, mergeOnto o (.table t) = .table m := by
      rw [mergeOnto_table]
      cases o.bind Data.table? with
      | none => exact ⟨t, rfl⟩
      | some base => exact ⟨overlay base t, rfl⟩
    have hself : overlay m t = m := by
      refine overlay_eq_self fun e he => ?_
      have hget := Table.get?_of_mem (Data.wellKeyed_table_iff.mp hv).1 he
      have hat : (Data.table t : Value).field? e.1 = some e.2 := hget
      have hentry : m.get? e.1 = some (mergeOnto (o.bind (·.field? e.1)) e.2) := by
        have hfield := field?_mergeOnto_of_field? o hv hat
        rw [hm] at hfield
        exact hfield
      rw [hentry, ih e he _ (hv.get? hget)]
    rw [hm, ← merge, merge_table, hself]
  | _ => rw [mergeOnto_of_table?_eq_none _ rfl, mergeOnto_of_table?_eq_none _ rfl]

/-- **An override that is laid over a value again changes nothing**, not even the order of keys. -/
theorem merge_merge_self (b : Value) {o : Value} (ho : o.WellKeyed) :
    merge (merge b o) o = merge b o :=
  mergeOnto_mergeOnto_self (some b) ho

end Bestiary.Value
