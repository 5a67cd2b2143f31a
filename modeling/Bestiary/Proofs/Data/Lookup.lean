import Bestiary.Proofs.Data.Merge
import Bestiary.Proofs.Data.Ordered

/-!
# Following keys into an overlay

What is found at a path of a merged value, and in which order its tables list their keys.

* `Value.field?_mergeOnto` is the law for one key, `Value.at?_mergeOnto` and
  `Value.at?_mergeOnto_of_absent` follow a path.
* `Value.keys_overlay`: the keys of the base, then the new ones, arranged as tables do.
* `Value.MergedAt` collects what a merged value has at a path; `Value.merge_mergedAt` is the law.
-/

namespace Bestiary.Value

open Table (arranged isIndex)

/-! ## Paths -/

@[simp] theorem at?_nil (v : Value) : v.at? [] = some v := rfl

theorem at?_cons (v : Value) (key : String) (keys : List String) :
    v.at? (key :: keys) = (v.field? key).bind (at? · keys) := rfl

theorem at?_singleton (v : Value) (key : String) : v.at? [key] = v.field? key := by
  rw [at?_cons]
  cases v.field? key <;> rfl

/-- A path into a table starts with what is under the first key. -/
theorem at?_table (t : Table Value) (key : String) (keys : List String) :
    (Value.at? (.table t) (key :: keys)) = (t.get? key).bind (at? · keys) := rfl

/-- A path is followed part by part. -/
theorem at?_append (v : Value) (keys more : List String) :
    v.at? (keys ++ more) = (v.at? keys).bind (at? · more) := by
  induction keys generalizing v with
  | nil => rfl
  | cons key keys ih =>
    rw [List.cons_append, at?_cons, at?_cons, Option.bind_assoc]
    congr 1
    funext w
    exact ih w

theorem wellKeyed_of_field? {v w : Value} (hv : v.WellKeyed) {key : String}
    (h : v.field? key = some w) : w.WellKeyed := by
  obtain ⟨t, ht, hget⟩ := Option.bind_eq_some_iff.mp h
  cases v with
  | table u =>
    obtain rfl := Option.some.inj ht
    exact hv.get? hget
  | _ => exact absurd ht (by simp [Data.table?])

theorem wellKeyed_of_at? {v w : Value} (hv : v.WellKeyed) {keys : List String}
    (h : v.at? keys = some w) : w.WellKeyed := by
  induction keys generalizing v with
  | nil =>
    obtain rfl := Option.some.inj h
    exact hv
  | cons key keys ih =>
    obtain ⟨x, hx, h⟩ := Option.bind_eq_some_iff.mp h
    exact ih (wellKeyed_of_field? hv hx) h

/-! ## What is laid over a value -/

theorem mergeOnto_none (v : Value) : mergeOnto none v = v := by
  cases v <;> simp [mergeOnto]

/-- **The law for one key**: a value that is laid over another holds its own entry laid over the
other's; where a table has no entry, the other's stays. -/
theorem field?_mergeOnto (base : Option Value) {v : Value} (hv : v.WellKeyed) (key : String) :
    (mergeOnto base v).field? key =
      match v.field? key with
      | some w => some (mergeOnto (base.bind (·.field? key)) w)
      | none => if v.isTable then base.bind (·.field? key) else none := by
  cases v with
  | table t =>
    have hfield : base.bind (·.field? key) = (base.bind Data.table?).bind (·.get? key) := by
      rw [Option.bind_assoc]
      rfl
    rw [mergeOnto_table, hfield]
    cases base.bind Data.table? with
    | none =>
      simp only [Option.elim_none, Option.bind_none, mergeOnto_none, ite_self]
      cases (Data.table t).field? key <;> rfl
    | some b => exact get?_overlay b (Data.wellKeyed_table_iff.mp hv).1 key
  | _ =>
    rw [mergeOnto_of_table?_eq_none base rfl]
    rfl

theorem field?_mergeOnto_of_field? (base : Option Value) {v w : Value} (hv : v.WellKeyed)
    {key : String} (h : v.field? key = some w) :
    (mergeOnto base v).field? key = some (mergeOnto (base.bind (·.field? key)) w) := by
  rw [field?_mergeOnto base hv, h]

theorem field?_mergeOnto_of_absent (base : Option Value) {v : Value} (hv : v.WellKeyed)
    {key : String} (h : v.field? key = none) :
    (mergeOnto base v).field? key = if v.isTable then base.bind (·.field? key) else none := by
  rw [field?_mergeOnto base hv, h]

/-- Where something is laid over a value, it is laid over what was at its place. -/
theorem at?_mergeOnto (base : Option Value) {v w : Value} (hv : v.WellKeyed) {keys : List String}
    (h : v.at? keys = some w) :
    (mergeOnto base v).at? keys = some (mergeOnto (base.bind (at? · keys)) w) := by
  induction keys generalizing base v with
  | nil =>
    obtain rfl := Option.some.inj h
    simp
  | cons key keys ih =>
    obtain ⟨x, hx, h⟩ := Option.bind_eq_some_iff.mp h
    rw [at?_cons, field?_mergeOnto_of_field? base hv hx, Option.bind_some,
      ih _ (wellKeyed_of_field? hv hx) h, Option.bind_assoc]
    rfl

/-- Where a path leaves what is laid over a value, the value is followed on, through tables. -/
theorem at?_mergeOnto_of_absent (base : Option Value) {v w : Value} (hv : v.WellKeyed)
    {keys rest : List String} {key : String} (hw : v.at? keys = some w)
    (habsent : w.field? key = none) :
    (mergeOnto base v).at? (keys ++ key :: rest) =
      if w.isTable then base.bind (at? · (keys ++ key :: rest)) else none := by
  rw [at?_append, at?_mergeOnto base hv hw, Option.bind_some, at?_cons,
    field?_mergeOnto_of_absent _ (wellKeyed_of_at? hv hw) habsent]
  simp only [at?_append, at?_cons]
  cases w.isTable with
  | true => simp only [if_true, Option.bind_assoc]
  | false => rfl

/-! ## The keys of an overlay -/

variable {base t : Table Value} {key : String}

theorem mem_keys_overlay : key ∈ (overlay base t).keys ↔ key ∈ base.keys ∨ key ∈ t.keys := by
  induction t generalizing base with
  | nil => simp [overlay]
  | cons e t ih =>
    obtain ⟨k, v⟩ := e
    rw [overlay_cons, ih, Table.mem_keys_set, Table.keys_cons, List.mem_cons]
    tauto

theorem ordered_overlay (hbase : base.Ordered) (t : Table Value) : (overlay base t).Ordered := by
  induction t generalizing base with
  | nil =>
    rw [overlay]
    exact hbase
  | cons e t ih =>
    rw [overlay_cons]
    exact ih (hbase.set _ _)

/-- Keys that are no indexes come in the order of the base, then in that of the new ones. -/
theorem filter_keys_overlay (base : Table Value) (ht : t.keys.Nodup) :
    ((overlay base t).keys.filter fun key => !isIndex key) =
      (base.keys ++ t.keys.filter fun key => key ∉ base.keys).filter fun key => !isIndex key := by
  induction t generalizing base with
  | nil => simp [overlay]
  | cons e t ih =>
    obtain ⟨k, v⟩ := e
    rw [Table.keys_cons, List.nodup_cons] at ht
    have hnew : ((Table.keys t).filter
        fun key => key ∉ (base.set k (mergeOnto (base.get? k) v)).keys) =
          (Table.keys t).filter fun key => key ∉ base.keys := by
      refine List.filter_congr fun key hkey => ?_
      have hne : key ≠ k := by
        rintro rfl
        exact ht.1 hkey
      simp [Table.mem_keys_set, hne]
    rw [overlay_cons, ih _ ht.2, hnew, List.filter_append, List.filter_append,
      Table.filter_keys_set, Table.keys_cons]
    by_cases hk : k ∈ base.keys
    · simp [hk]
    · cases hindex : isIndex k <;> simp [hk, hindex]

/-- **The keys of an overlay** are those of the base, then the new ones, arranged as in a table. -/
theorem keys_overlay (hbase : base.Ordered) (ht : t.keys.Nodup) :
    (overlay base t).keys = arranged (base.keys ++ t.keys.filter fun key => key ∉ base.keys) := by
  have hordered := ordered_overlay hbase t
  refine Table.eq_arranged hordered.2 (List.Perm.filter _ ?_) (filter_keys_overlay base ht)
  refine (List.perm_ext_iff_of_nodup hordered.1 ?_).mpr fun key => ?_
  · refine List.nodup_append.mpr ⟨hbase.1, ht.filter _, fun a ha b hb => ?_⟩
    rintro rfl
    simpa [ha] using (List.mem_filter.mp hb).2
  · rw [mem_keys_overlay, List.mem_append, List.mem_filter]
    by_cases hkey : key ∈ base.keys <;> simp [hkey]

/-! ## What a merged value has at a path -/

/-- Both values have a table at the path. -/
def TablesAt (b o : Value) (path : List String) : Prop :=
  ∃ t u : Table Value, b.at? path = some (.table t) ∧ o.at? path = some (.table u)

/-- The longest part of a path, from its start, that leads to something. -/
structure IsReach (v : Value) (path reach : List String) : Prop where
  front : reach <+: path
  found : v.at? reach ≠ none
  longest : ∀ part, part <+: path → v.at? part ≠ none → part <+: reach

/-- What `m`, which is `o` laid over `b`, has at a path. -/
structure MergedAt (b o m : Value) (path : List String) : Prop where
  /-- Tables are merged. -/
  merged : ∀ t u : Table Value, b.at? path = some (.table t) → o.at? path = some (.table u) →
    m.at? path = some (merge (.table t) (.table u))
  /-- All else is replaced. -/
  replaced : ∀ w, o.at? path = some w → ¬TablesAt b o path → m.at? path = some w
  /-- Where the override has nothing, the base is kept if the override ends in a merged table. -/
  kept : o.at? path = none → ∀ reach, IsReach o path reach → TablesAt b o reach →
    m.at? path = b.at? path
  /-- If the override ends elsewhere, nothing of the base is left. -/
  cut : o.at? path = none → ∀ reach, IsReach o path reach → ¬TablesAt b o reach →
    m.at? path = none
  /-- A merged table has the keys of the base and then the new ones, arranged as in a table. -/
  keys : ∀ t u : Table Value, b.at? path = some (.table t) → o.at? path = some (.table u) →
    t.Ordered → ∃ x : Table Value, m.at? path = some (.table x) ∧
      x.keys = arranged (t.keys ++ u.keys.filter fun key => key ∉ t.keys)

/-- A path that leads nowhere leaves a value behind its longest part that leads to something. -/
theorem IsReach.exists_absent {v : Value} {path reach : List String} (h : IsReach v path reach)
    (hpath : v.at? path = none) :
    ∃ w key rest, path = reach ++ key :: rest ∧ v.at? reach = some w ∧ w.field? key = none := by
  obtain ⟨w, hw⟩ := Option.ne_none_iff_exists'.mp h.found
  obtain ⟨rest, rfl⟩ := h.front
  cases rest with
  | nil => exact absurd (hpath.symm.trans (by simpa using hw)) (by simp)
  | cons key rest =>
    refine ⟨w, key, rest, rfl, hw, ?_⟩
    by_contra hfield
    have hnext : v.at? (reach ++ [key]) ≠ none := by
      obtain ⟨x, hx⟩ := Option.ne_none_iff_exists'.mp hfield
      simp [at?_append, at?_cons, hw, hx]
    have hlonger := h.longest (reach ++ [key]) ⟨rest, by simp⟩ hnext
    simpa using hlonger.length_le

theorem isReach_of_absent {v w : Value} {reach rest : List String} (hw : v.at? reach = some w)
    (habsent : w.field? key = none) : IsReach v (reach ++ key :: rest) reach where
  front := List.prefix_append _ _
  found := by simp [hw]
  longest part hpart hfound := by
    rcases List.prefix_or_prefix_of_prefix hpart (List.prefix_append reach _) with h | ⟨more, rfl⟩
    · exact h
    · cases more with
      | nil => simp
      | cons k more =>
        rw [List.prefix_append_right_inj, List.cons_prefix_cons] at hpart
        obtain ⟨rfl, -⟩ := hpart
        rw [at?_append, hw, Option.bind_some, at?_cons, habsent] at hfound
        exact absurd rfl hfound

theorem mergeOnto_of_not_tables {o : Option Value} {w : Value}
    (h : ∀ t u, o = some (.table t) → w ≠ .table u) : mergeOnto o w = w := by
  cases w with
  | table u =>
    rw [mergeOnto_table]
    cases hbase : o.bind Data.table? with
    | none => rfl
    | some t => exact absurd rfl (h t u (bind_table?_eq_some_iff.mp hbase))
  | _ => exact mergeOnto_of_table?_eq_none o rfl

/-- **The law of lookup in merged values.** -/
theorem merge_mergedAt {b o : Value} (ho : o.WellKeyed) (path : List String) :
    MergedAt b o (merge b o) path where
  merged t u ht hu := by
    rw [merge, at?_mergeOnto _ ho hu, Option.bind_some, ht, merge]
  replaced w hw htables := by
    rw [merge, at?_mergeOnto _ ho hw, Option.bind_some, mergeOnto_of_not_tables]
    rintro t u ht rfl
    exact htables ⟨t, u, ht, hw⟩
  kept hnone reach hreach htables := by
    obtain ⟨w, key, rest, rfl, hw, habsent⟩ := hreach.exists_absent hnone
    obtain ⟨t, u, -, hu⟩ := htables
    obtain rfl := Option.some.inj (hw.symm.trans hu)
    rw [merge, at?_mergeOnto_of_absent _ ho hw habsent]
    exact if_pos rfl
  cut hnone reach hreach htables := by
    obtain ⟨w, key, rest, rfl, hw, habsent⟩ := hreach.exists_absent hnone
    rw [merge, at?_mergeOnto_of_absent _ ho hw habsent, Option.bind_some, ite_eq_right_iff]
    intro htable
    rw [at?_append, Option.bind_eq_none_iff]
    intro x hx
    cases w with
    | table u =>
      cases x with
      | table t => exact absurd ⟨t, u, hx, hw⟩ htables
      | _ => rfl
    | _ => exact absurd htable (by simp [Data.isTable, Data.table?])
  keys t u ht hu hordered := by
    have hnodup := (Data.wellKeyed_table_iff.mp (wellKeyed_of_at? ho hu)).1
    refine ⟨overlay t u, ?_, keys_overlay hordered hnodup⟩
    rw [merge, at?_mergeOnto _ ho hu, Option.bind_some, ht, ← merge, merge_table]

/-- A mob with limbs, some of them numbered, and a sprite that is a table. -/
def moth : Value :=
  .table [("limbs", .table [("4", .natural 4), ("left", .natural 1), ("skin", .text "fur")]),
    ("sprite", .table [("frame", .natural 2)])]

/-- A patch that names limbs before and after those of the mob, and another sprite. -/
def mothPatch : Value :=
  .table [("3", .flag true), ("sprite", .text "moth.png"),
    ("limbs", .table [("2", .natural 2), ("10", .natural 10), ("tail", .natural 3),
      ("left", .natural 5)])]

theorem merge_mergedAt_moth :
    mothPatch.WellKeyed ∧ (∀ path, MergedAt moth mothPatch (merge moth mothPatch) path) ∧
      (merge moth mothPatch).at? ["limbs"] = some (.table [("2", .natural 2), ("4", .natural 4),
        ("10", .natural 10), ("left", .natural 5), ("skin", .text "fur"), ("tail", .natural 3)]) ∧
      (merge moth mothPatch).at? ["sprite", "frame"] = none := by
  have hkeyed : mothPatch.WellKeyed := by
    simp [mothPatch, Data.WellKeyed, Data.EntriesWellKeyed, Data.natural]
  have hreach : IsReach mothPatch (["sprite"] ++ "frame" :: []) ["sprite"] :=
    isReach_of_absent rfl rfl
  refine ⟨hkeyed, merge_mergedAt hkeyed, rfl, ?_⟩
  refine (merge_mergedAt hkeyed ["sprite", "frame"]).cut rfl ["sprite"] hreach ?_
  rintro ⟨t, u, -, hu⟩
  exact absurd (Option.some.inj hu) (by simp)

end Bestiary.Value
