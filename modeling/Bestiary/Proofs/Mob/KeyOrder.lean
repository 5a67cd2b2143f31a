import Bestiary.Mob.Registry
import Bestiary.Proofs.Behavior.Reordered
import Bestiary.Proofs.Data.Merge
import Bestiary.Proofs.Mob.ReorderedCheck
import Bestiary.Proofs.Mob.Resolve
import Bestiary.Proofs.Mob.Written
import Bestiary.Proofs.Schema.Reordered

/-!
# The order of keys never matters

Files that hold the same tables, with keys in another order at any depth, come to the same: the
same names, the same definitions up to the order of keys, the same plans, the same counts of
remarks. Only the wording of errors and reports may differ.

* `Definition.exists_read_of_reordered`: what a definition is read as.
* `Layered.reordered_extend` and `Layered.reordered_patch` are what one file does to two states that
  differ in the order of keys, `Layered.exists_layer_of_reordered` what all files do.
* `Resolution.conforming_paired` and `Resolution.entities_eq`: what becomes of the definitions.
* `keyOrder_never_matters` puts this and the verdicts of the checks together.
-/

namespace Bestiary

open Value (Reordered same agree)

namespace Definition

/-! ## Definitions -/

/-- Two definitions are written alike, but for the order of keys, and compiled alike. -/
structure Alike (m m' : Definition) : Prop where
  written : ∃ t t', m.written = .ok t ∧ m'.written = .ok t' ∧ same (.table t) (.table t') = true
  plan : m.behavior.map Node.plan = m'.behavior.map Node.plan

theorem keys_toTable_sublist {entries : Table Value} {m : Definition}
    (h : Schema.readFields ownFields entries = .accepted m.fields) :
    (Table.keys m.toTable).Sublist fieldKeys := by
  rw [fieldKeys, allFields_eq, List.map_append, toTable, Table.keys_append]
  refine (Schema.keys_sublist_of_readFields h).append ?_
  cases m.behavior with
  | none => exact List.nil_sublist _
  | some n => exact .refl _

/-- **A definition with its keys in another order is accepted too**, and stands for the same mob. -/
theorem exists_read_of_reordered {entity : String} {v w : Value} (h : Reordered v w)
    {m : Definition} (hm : read entity v = .ok m) : ∃ m', read entity w = .ok m' ∧ m.Alike m' := by
  obtain ⟨entries, rfl, hclosed, hown, hbehavior⟩ := read_eq_ok_iff.mp hm
  obtain ⟨entries', rfl⟩ := h.exists_table
  have htidy : ∀ f ∈ ownFields, f.2.1.isTidy = true ∧ f.2.2.isTidy = true := fun f hf =>
    (Schema.isTidy_record_iff.mp isTidy_schema).2 f (List.dropLast_subset _ hf)
  obtain ⟨fields', hown', hpaired⟩ := Schema.exists_readFields
    (fun f hf => Schema.keepsSame (htidy f hf).2)
    (fun f hf => Schema.same_default_of_isTidy (htidy f hf).1) h hown
  let m' : Definition := ⟨fields', (Table.get? entries' "behavior").map Node.read⟩
  have hnone := behavior_not_mem_keys hown
  have hnone' : "behavior" ∉ m'.fields.keys := behavior_not_mem_keys hown'
  have hnodup : fieldKeys.Nodup := by decide
  refine ⟨m', read_eq_ok_iff.mpr ⟨entries', rfl, h.closed hclosed, hown', rfl⟩,
    ⟨m.toTable, m'.toTable, written_eq hnone, written_eq hnone', ?_⟩, ?_⟩
  · rw [Value.same_table_iff_agree (hnodup.sublist (keys_toTable_sublist hown))
      (hnodup.sublist (keys_toTable_sublist (m := m') hown'))]
    intro key
    rw [get?_toTable, get?_toTable]
    by_cases hkey : key = "behavior"
    · subst hkey
      rw [Table.get?_eq_none_iff.mpr hnone, Table.get?_eq_none_iff.mpr hnone', if_pos rfl,
        if_pos rfl, hbehavior]
      obtain ⟨ht, hu⟩ | ⟨tree, tree', ht, hu, htree⟩ := h.get? "behavior"
      · simp [m', ht, hu, agree]
      · simpa [m', ht, hu, agree] using Node.same_toData_read_of_reordered htree
    · rw [if_neg hkey, if_neg hkey, Option.or_none, Option.or_none]
      exact Value.agree_iff_rel.mpr (hpaired.get? key)
  · rw [hbehavior]
    obtain ⟨ht, hu⟩ | ⟨tree, tree', ht, hu, htree⟩ := h.get? "behavior"
    · simp [m', ht, hu]
    · simp [m', ht, hu, Node.plan_read_of_reordered htree]

end Definition

/-! ## Files -/

/-- Two files at one path hold tables that differ in the order of keys alone. -/
structure SourceFile.Reordered (f f' : SourceFile) : Prop where
  path : f.path = f'.path
  parse : ∃ t t', f.parse = .ok t ∧ f'.parse = .ok t' ∧ same (.table t) (.table t') = true

/-- Two sources have, file by file in each layer, files that differ in the order of keys alone. -/
structure Sources.Reordered (s s' : Sources) : Prop where
  base : List.Forall₂ SourceFile.Reordered s.base s'.base
  extended : List.Forall₂ SourceFile.Reordered s.extended s'.extended
  patches : List.Forall₂ SourceFile.Reordered s.patches s'.patches

namespace SourceFile

/-- A parsed document has no key twice, so nothing else is to be known of the tables. -/
theorem Reordered.exists_parse {f f' : SourceFile} (h : f.Reordered f') :
    ∃ t t', f.parse = .ok t ∧ f'.parse = .ok t' ∧ Value.Reordered (.table t) (.table t') := by
  obtain ⟨t, t', ht, ht', hsame⟩ := h.parse
  exact ⟨t, t', ht, ht', wellKeyed_of_parse ht, wellKeyed_of_parse ht', hsame⟩

end SourceFile

/-- Related lists are sorted alike by what the relation leaves alone. -/
theorem forall₂_mergeSort {α β : Type} {R : α → β → Prop} {le : α → α → Bool}
    {le' : β → β → Bool} (hle : ∀ a a' b b', R a a' → R b b' → le a b = le' a' b') {l : List α}
    {l' : List β} (h : List.Forall₂ R l l') :
    List.Forall₂ R (l.mergeSort le) (l'.mergeSort le') := by
  obtain ⟨hlen, hzip⟩ := List.forall₂_iff_zip.mp h
  have hrel : ∀ p ∈ l.zip l', R p.1 p.2 := fun p hp => hzip hp
  -- The pairs are sorted by their first parts, and so by their second parts.
  have hfst := List.map_mergeSort (r := fun p q : α × β => le p.1 q.1) (s := le) (f := Prod.fst)
    (l := l.zip l') fun _ _ _ _ => rfl
  have hsnd := List.map_mergeSort (r := fun p q : α × β => le p.1 q.1) (s := le') (f := Prod.snd)
    (l := l.zip l') fun p hp q hq => hle _ _ _ _ (hrel p hp) (hrel q hq)
  rw [List.map_fst_zip (Nat.le_of_eq hlen)] at hfst
  rw [List.map_snd_zip (Nat.le_of_eq hlen.symm)] at hsnd
  rw [← hfst, ← hsnd, List.forall₂_map_left_iff, List.forall₂_map_right_iff, List.forall₂_same]
  exact fun p hp => hrel p ((List.mergeSort_perm _ _).mem_iff.mp hp)

theorem forall₂_byPath {files files' : List SourceFile}
    (h : List.Forall₂ SourceFile.Reordered files files') :
    List.Forall₂ SourceFile.Reordered (byPath files) (byPath files') := by
  refine forall₂_mergeSort (fun f f' g g' hf hg => ?_) h
  rw [hf.path, hg.path]

/-! ## Layers -/

/-- The same names in the same order, with definitions that differ in the order of keys alone. -/
abbrev TablesReordered (t u : Table (Table Value)) : Prop :=
  t.Paired (fun v w => Reordered (.table v) (.table w)) u

theorem Table.Paired.setAll {α β : Type} {R : α → β → Prop} {t entries : Table α}
    {u entries' : Table β} (h : t.Paired R u) (hentries : entries.Paired R entries') :
    (Table.setAll t entries).Paired R (Table.setAll u entries') := by
  unfold Table.setAll
  induction hentries generalizing t u with
  | nil => exact h
  | @cons e e' _ _ he _ ih =>
    obtain ⟨hkey, hvw⟩ := he
    rw [List.foldl_cons, List.foldl_cons, hkey]
    exact ih (h.set e'.1 hvw)

namespace Layered

variable {root : String} {l l' : Layered} {f f' : SourceFile}

/-- **Step**: an extended file with its keys in another order. -/
theorem reordered_extend (h : TablesReordered l.tables l'.tables) (hf : f.Reordered f') :
    TablesReordered (l.extend root f).tables (l'.extend root f').tables := by
  obtain ⟨t, t', ht, ht', htt'⟩ := hf.exists_parse
  unfold extend
  rw [ht, ht', hf.path]
  exact h.set _ htt'

/-- **Step**: a patch with its keys in another order. -/
theorem reordered_patch (h : TablesReordered l.tables l'.tables) (hf : f.Reordered f') :
    TablesReordered (l.patch root f).tables (l'.patch root f').tables := by
  obtain ⟨t, t', ht, ht', htt'⟩ := hf.exists_parse
  have htarget := h.get? (nameOf root f'.path)
  unfold patch
  rw [ht, ht', hf.path]
  simp only
  cases hb : l.tables.get? (nameOf root f'.path) with
  | none =>
    cases hb' : l'.tables.get? (nameOf root f'.path) with
    | none => exact h
    | some b' =>
      rw [hb, hb'] at htarget
      cases htarget
  | some b =>
    cases hb' : l'.tables.get? (nameOf root f'.path) with
    | none =>
      rw [hb, hb'] at htarget
      cases htarget
    | some b' =>
      rw [hb, hb'] at htarget
      obtain hbb' | _ := htarget
      exact h.set _ (hbb'.overlay htt')

/-- **Run**: files are taken one by one. -/
theorem reordered_foldl {step : Layered → SourceFile → Layered}
    (hstep : ∀ {l l' f f'}, TablesReordered l.tables l'.tables → f.Reordered f' →
      TablesReordered (step l f).tables (step l' f').tables)
    {files files' : List SourceFile} (hfiles : List.Forall₂ SourceFile.Reordered files files')
    (h : TablesReordered l.tables l'.tables) :
    TablesReordered (files.foldl step l).tables (files'.foldl step l').tables := by
  induction hfiles generalizing l l' with
  | nil => exact h
  | cons hf _ ih => exact ih (hstep h hf)

theorem exists_readBase_of_reordered (root : String) {files files' : List SourceFile}
    (h : List.Forall₂ SourceFile.Reordered files files') :
    ∃ tables tables', readBase root files = .ok tables ∧ readBase root files' = .ok tables' ∧
      TablesReordered tables tables' := by
  simp only [readBase, Except.mapM_eq_ok_iff]
  induction h with
  | nil => exact ⟨[], [], .nil, .nil, .nil⟩
  | @cons f f' _ _ hf _ ih =>
    obtain ⟨tables, tables', htables, htables', hpaired⟩ := ih
    obtain ⟨t, t', ht, ht', htt'⟩ := hf.exists_parse
    refine ⟨(nameOf root f.path, t) :: tables, (nameOf root f'.path, t') :: tables',
      .cons ?_ htables, .cons ?_ htables', .cons ⟨?_, htt'⟩ hpaired⟩
    · rw [ht]
    · rw [ht']
    · rw [hf.path]

/-- **Sources with keys in another order have layers that differ in nothing else.** -/
theorem exists_layer_of_reordered (root : String) {s s' : Sources} (h : s.Reordered s') :
    ∃ l l', layer root s = .ok l ∧ layer root s' = .ok l' ∧ TablesReordered l.tables l'.tables := by
  obtain ⟨tables, tables', hbase, hbase', hpaired⟩ :=
    exists_readBase_of_reordered root (forall₂_byPath h.base)
  refine ⟨_, _, layer_eq_ok_iff.mpr ⟨tables, hbase, rfl⟩,
    layer_eq_ok_iff.mpr ⟨tables', hbase', rfl⟩, ?_⟩
  refine reordered_foldl reordered_patch (forall₂_byPath h.patches) ?_
  refine reordered_foldl reordered_extend (forall₂_byPath h.extended) ?_
  exact Table.Paired.setAll .nil hpaired

theorem reordered_values (h : TablesReordered l.tables l'.tables) :
    TablesReordered l.values l'.values := by
  unfold values
  rw [h.keys_eq]
  refine List.rel_filterMap (fun name name' hname => ?_) (List.forall₂_same.mpr fun _ _ => rfl)
  obtain rfl : name = name' := hname
  have hget := h.get? name
  generalize l.tables.get? name = o, l'.tables.get? name = o' at hget
  obtain ht | _ := hget
  · exact .some ⟨rfl, ht⟩
  · exact .none

end Layered

/-! ## Resolutions -/

namespace Resolution

variable {values values' : Table (Table Value)}

/-- A definition is refused in any order of its keys, or accepted in any. -/
theorem read_cases (name : String) {t t' : Table Value} (h : Reordered (.table t) (.table t')) :
    (∃ m m', Definition.read name (.table t) = .ok m ∧ Definition.read name (.table t') = .ok m' ∧
        m.Alike m') ∨
      ∃ e e', Definition.read name (.table t) = .error e ∧
        Definition.read name (.table t') = .error e' := by
  cases hread : Definition.read name (.table t) with
  | ok m =>
    obtain ⟨m', hread', halike⟩ := Definition.exists_read_of_reordered h hread
    exact .inl ⟨m, m', rfl, hread', halike⟩
  | error e =>
    cases hread' : Definition.read name (.table t') with
    | ok m' =>
      obtain ⟨m, hm, -⟩ := Definition.exists_read_of_reordered h.symm hread'
      exact absurd (hread.symm.trans hm) (by simp)
    | error e' => exact .inr ⟨e, e', rfl, rfl⟩

theorem conforming_paired (h : TablesReordered values values') :
    (conforming values).Paired Definition.Alike (conforming values') := by
  refine List.rel_filterMap ?_ h
  rintro ⟨name, t⟩ ⟨_, t'⟩ ⟨rfl, htt'⟩
  obtain ⟨m, m', hm, hm', halike⟩ | ⟨e, e', he, he'⟩ := read_cases name htt'
  · simp only [hm, hm']
    exact .some ⟨rfl, halike⟩
  · simp only [he, he']
    exact .none

theorem entities_eq (h : TablesReordered values values') :
    (issues values).map DefinitionError.entity = (issues values').map DefinitionError.entity := by
  rw [← List.forall₂_eq_eq_eq, List.forall₂_map_left_iff, List.forall₂_map_right_iff]
  refine List.rel_filterMap ?_ h
  rintro ⟨name, t⟩ ⟨_, t'⟩ ⟨rfl, htt'⟩
  obtain ⟨m, m', hm, hm', -⟩ | ⟨e, e', he, he'⟩ := read_cases name htt'
  · simp only [hm, hm']
    exact .none
  · simp only [he, he']
    exact .some ((Definition.entity_of_read he).trans (Definition.entity_of_read he').symm)

end Resolution

/-- Definitions that are alike are compiled alike. -/
theorem Registry.plans_compileAll_eq {mobs mobs' : Table Definition}
    (h : mobs.Paired Definition.Alike mobs') :
    (compileAll mobs).map (fun e => (e.1, e.2.plan)) =
      (compileAll mobs').map fun e => (e.1, e.2.plan) := by
  rw [← List.forall₂_eq_eq_eq, List.forall₂_map_left_iff, List.forall₂_map_right_iff]
  refine List.rel_filterMap ?_ h
  rintro ⟨name, m⟩ ⟨_, m'⟩ ⟨rfl, halike⟩
  have hplan := halike.plan
  simp only
  cases hm : m.behavior <;> cases hm' : m'.behavior <;> rw [hm, hm'] at hplan
  · exact .none
  · cases hplan
  · cases hplan
  · exact .some (congrArg (Prod.mk name) (Option.some.inj hplan))

/-- **The order of keys never matters.** Sources that differ in nothing else have the same names
among their definitions, mobs and failures, in the same order. Definitions and written mobs are
the same up to the order of keys, and plans are the same. Documents that differ in nothing else get
verdicts with the same counts. -/
theorem keyOrder_never_matters (root : String) {s s' : Sources} (h : s.Reordered s') :
    (∃ r r', resolve root s = .ok r ∧ resolve root s' = .ok r' ∧
      r.mobs.keys = r'.mobs.keys ∧
      r.failures.map DefinitionError.entity = r'.failures.map DefinitionError.entity ∧
      r.values.keys = r'.values.keys ∧
      (∀ name t t', r.values.get? name = some t → r'.values.get? name = some t' →
        same (.table t) (.table t') = true) ∧
      (∀ name m m', r.mobs.get? name = some m → r'.mobs.get? name = some m' →
        ∃ t t', m.written = .ok t ∧ m'.written = .ok t' ∧ same (.table t) (.table t') = true) ∧
      ∀ root', (Registry.build root' r).compiled.map (fun e => (e.1, e.2.plan)) =
        (Registry.build root' r').compiled.map fun e => (e.1, e.2.plan)) ∧
    ∀ v w : Value, v.WellKeyed → w.WellKeyed → same v w = true → ∀ isPatch,
      (validate isPatch v).toOption.map Verdict.totals =
        (validate isPatch w).toOption.map Verdict.totals := by
  refine ⟨?_, fun v w hv hw hsame isPatch => validate_of_reordered ⟨hv, hw, hsame⟩ isPatch⟩
  obtain ⟨l, l', hl, hl', htables⟩ := Layered.exists_layer_of_reordered root h
  have hvalues := Layered.reordered_values htables
  have hmobs := Resolution.conforming_paired hvalues
  refine ⟨.ofLayered l, .ofLayered l', by rw [resolve, hl], by rw [resolve, hl'], hmobs.keys_eq,
    Resolution.entities_eq hvalues, hvalues.keys_eq, fun name t t' ht ht' => ?_,
    fun name m m' hm hm' => ?_, fun _ => Registry.plans_compileAll_eq hmobs⟩
  · have hget := hvalues.get? name
    rw [show l.values.get? name = some t from ht, show l'.values.get? name = some t' from ht'] at hget
    obtain hsame | _ := hget
    exact hsame.same
  · have hget := hmobs.get? name
    rw [show Table.get? (Resolution.conforming l.values) name = some m from hm,
      show Table.get? (Resolution.conforming l'.values) name = some m' from hm'] at hget
    obtain halike | _ := hget
    exact halike.written

/-- A mob with a tree of an unknown type, with its keys in two orders, and a patch that names it;
and the same tree in a document. -/
theorem keyOrder_never_matters_moon :
    let file (path text : String) : SourceFile := ⟨path, .text text⟩
    let moon := file "mobs/moon.mob" "behavior.type = \"Orbit\"\nbehavior.at = \"earth\""
    let moon' := file "mobs/moon.mob" "behavior.at = \"earth\"\nbehavior.type = \"Orbit\""
    let patch := file "mobs/moon.mobpatch" "name = \"moon\""
    let v : Value := .table [("name", .text "moon"),
      ("behavior", .table [("type", .text "Orbit"), ("at", .text "earth")])]
    let w : Value := .table [("behavior", .table [("at", .text "earth"), ("type", .text "Orbit")]),
      ("name", .text "moon")]
    Sources.Reordered ⟨[moon], [], [patch]⟩ ⟨[moon'], [], [patch]⟩ ∧
      v.WellKeyed ∧ w.WellKeyed ∧ same v w = true ∧
      (∃ r r', resolve "mobs/" ⟨[moon], [], [patch]⟩ = .ok r ∧
        resolve "mobs/" ⟨[moon'], [], [patch]⟩ = .ok r' ∧ r.mobs.keys = r'.mobs.keys) ∧
      (validate false v).toOption.map Verdict.totals =
        (validate false w).toOption.map Verdict.totals := by
  intro file moon moon' patch v w
  have hmoon : moon.Reordered moon' :=
    ⟨rfl, [("behavior", .table [("type", .text "Orbit"), ("at", .text "earth")])],
      [("behavior", .table [("at", .text "earth"), ("type", .text "Orbit")])], by cbv, by cbv,
      by cbv⟩
  have hpatch : patch.Reordered patch :=
    ⟨rfl, [("name", .text "moon")], [("name", .text "moon")], by cbv, by cbv, by cbv⟩
  have h : Sources.Reordered ⟨[moon], [], [patch]⟩ ⟨[moon'], [], [patch]⟩ :=
    ⟨.cons hmoon .nil, .nil, .cons hpatch .nil⟩
  have hv : v.WellKeyed := by simp [v, Data.WellKeyed, Data.EntriesWellKeyed]
  have hw : w.WellKeyed := by simp [w, Data.WellKeyed, Data.EntriesWellKeyed]
  have hsame : same v w = true := by cbv
  obtain ⟨⟨r, r', hr, hr', hmobs, -⟩, hverdict⟩ := keyOrder_never_matters "mobs/" h
  exact ⟨h, hv, hw, hsame, ⟨r, r', hr, hr', hmobs⟩, hverdict v w hv hw hsame false⟩

end Bestiary
