import Bestiary.Proofs.Editor.Keyed
import Bestiary.Proofs.Editor.Validity
import Bestiary.Proofs.Mob.KeyOrder
import Bestiary.Proofs.Mob.Registry

/-!
# The preview of a patch is what is loaded

A session keeps the definition that its document stands for, and builds it anew when another
document takes the place of that one. So what is kept is always that of the present document: for a
patch, the patch laid over its base. The files of the base and of the patch are resolved to the same
definition, and the registry has the plan that the editor shows.

* `Sources.definition?_patched` is what a base file and a patch define.
* `Resolution.ShownBy` says that a session shows of its document what becomes of the two files.
* `Session.run_isLoaded` says so of every session, by `Session.run_allHold` and the lemmas on
  `OpenDocument.IsUpToDate`.
-/

namespace Bestiary

open Data (WellKeyed)

/-! ## The files of a patched mob -/

theorem byPath_singleton (f : SourceFile) : byPath [f] = [f] := List.mergeSort_singleton f

/-- **A base file and a patch** of one name define the patch laid over the base. -/
theorem Sources.definition?_patched {root name : String} {baseFile patchFile : SourceFile}
    {base patch : Table Value} (hbaseName : nameOf root baseFile.path = name)
    (hpatchName : nameOf root patchFile.path = name) (hbase : baseFile.parse = .ok base)
    (hpatch : patchFile.parse = .ok patch) :
    Sources.definition? ⟨[baseFile], [], [patchFile]⟩ root name =
      some (.table (Value.overlay base patch)) := by
  have htable : ∀ {f : SourceFile} {t : Table Value}, nameOf root f.path = name →
      f.parse = .ok t → tablesIn (byPath (filesNamed root name [f])) = [t] := by
    intro f t hname ht
    rw [filesNamed_cons, if_pos hname, show filesNamed root name [] = [] from rfl,
      byPath_singleton, tablesIn_cons, ht]
    rfl
  have hnone : tablesIn (byPath (filesNamed root name [])) = [] := by
    simp [filesNamed, byPath, tablesIn]
  unfold Sources.definition?
  simp only [hnone, htable hbaseName hbase, htable hpatchName hpatch, foldl_merge_table]
  rfl

/-! ## What is loaded -/

/-- A resolution and the registry of it have, under the name of a document, just what an editor
shows of the document: the preview, a mob if the document is valid, and the plan of the preview. -/
structure Resolution.ShownBy (r : Resolution) (root : String) (d : OpenDocument) : Prop where
  value : ∃ merged, r.values.get? (nameOf root d.path) = some merged ∧
    Value.same (.table merged) (.table d.preview) = true
  mob : d.IsValid → nameOf root d.path ∈ r.mobs.keys ∧
    ∀ e ∈ r.failures, e.entity ≠ nameOf root d.path
  plan : nameOf root d.path ∈ r.mobs.keys →
    (Registry.build root r).plan? d.path = d.compiled?.map Compiled.plan

namespace OpenDocument

theorem plan_compiled? (d : OpenDocument) :
    d.compiled?.map Compiled.plan =
      ((d.preview.get? "behavior").map Node.read).map Node.plan := by
  rw [compiled?, Option.map_map, Option.map_map]
  rfl

/-- A valid patch makes a mob of its base. -/
theorem IsValid.exists_read {d : OpenDocument} (h : d.IsValid) (hkind : d.kind = .patch)
    (hbase : d.base.isSome) (entity : String) :
    ∃ m, Definition.read entity (.table d.preview) = .ok m := by
  have hrefusal := refusal?_eq_none_iff.mp (isValid_iff.mp h).2
  simp only [hkind] at hrefusal
  rw [Definition.read_ok_iff]
  exact hrefusal.2 hbase

end OpenDocument

theorem Resolution.shownBy {root : String} {s : Sources} {r : Resolution} {d : OpenDocument}
    {merged : Table Value} (hr : resolve root s = .ok r)
    (hdefinition : s.definition? root (nameOf root d.path) = some (.table merged))
    (hmerged : Value.Reordered (.table merged) (.table d.preview)) (hkind : d.kind = .patch)
    (hbase : d.base.isSome) :
    r.values.get? (nameOf root d.path) = some merged ∧ r.ShownBy root d := by
  have hholds := holds_of_resolve hr (nameOf root d.path)
  have hmerge := hholds
  rw [hdefinition] at hmerge
  obtain ⟨hheld, hread⟩ := hmerge
  obtain ⟨t, hvalue, ht⟩ := Option.map_eq_some_iff.mp hheld
  obtain rfl := Data.table.inj ht
  refine ⟨hvalue, ⟨t, hvalue, hmerged.same⟩, fun hvalid => ?_, fun hlisted => ?_⟩
  · obtain ⟨m, hm⟩ := hvalid.exists_read hkind hbase (nameOf root d.path)
    obtain ⟨m', hm', -⟩ := Definition.exists_read_of_reordered hmerged.symm hm
    rw [hm'] at hread
    refine ⟨Table.mem_keys_iff.mpr ⟨m', hread.1⟩, fun e he heq => ?_⟩
    exact absurd (decide_eq_true heq) (List.filter_eq_nil_iff.mp hread.2 e he)
  · obtain ⟨m, hm⟩ := Table.mem_keys_iff.mp hlisted
    have hfind : (Registry.build root r).find? d.path = some m := hm
    obtain ⟨t', -, ht', hread⟩ := hholds.exists_read hm
    obtain rfl : t = t' := Option.some.inj (hvalue.symm.trans ht')
    obtain ⟨entries, hentries, -, -, hbehavior⟩ := Definition.read_eq_ok_iff.mp hread
    obtain rfl := Data.table.inj hentries
    rw [Registry.plan?_build (nodup_mobs_of_resolve hr), hfind, Option.bind_some, hbehavior,
      d.plan_compiled?]
    obtain ⟨ht, hp⟩ | ⟨tree, tree', ht, hp, htree⟩ := hmerged.get? "behavior"
    · rw [ht, hp]
    · rw [ht, hp]
      exact congrArg some (Node.plan_read_of_reordered htree).symm

/-! ## Both sides -/

/-- **The preview of a patch is what is loaded.** After any operations on a document that was opened
with a base or without one, the preview that is kept is the patch laid over its base, or the
document itself. If a base file and a file with the patch are resolved, with their keys in any
order, the one definition under their name is that preview; it is a mob and no failure if the
document is valid; and if it is a mob, the registry has the plan that the preview is compiled to,
or neither has one. -/
theorem Session.run_isLoaded (s : Session) (path : String) (kind : DocumentKind)
    {base : Option (Table Value)} (hbase : ∀ b, base = some b → WellKeyed (.table b))
    {document : Table Value} (hdocument : WellKeyed (.table document)) (steps : List SessionStep)
    (hsteps : ∀ x ∈ steps, x.IsKeyed) :
    let now := (s.open path kind base document).run steps
    ∃ d, now.document = some d ∧ d.path = path ∧
      (match kind, base with
        | .patch, some b => .table d.preview = Value.merge (.table b) (.table d.current)
        | _, _ => d.preview = d.current) ∧
      ∀ root baseFile patchFile b base' patch', kind = .patch → base = some b →
        nameOf root baseFile.path = nameOf root path → baseFile.parse = .ok base' →
        Value.same (.table base') (.table b) = true → patchFile.path = path →
        patchFile.parse = .ok patch' → Value.same (.table patch') (.table d.current) = true →
        ∃ r, resolve root ⟨[baseFile], [], [patchFile]⟩ = .ok r ∧
          r.values.get? (nameOf root path) = some (Value.overlay base' patch') ∧
          r.ShownBy root d := by
  intro now
  have hopened : (s.open path kind base document).document =
      some (.opened path kind base document) := rfl
  obtain ⟨hall, d, hd, hfile⟩ := run_allHold steps (fun x hx => keeps_wellKeyed (hsteps x hx))
    hopened (.open s path kind base hdocument)
  have hcurrent : WellKeyed (.table d.current) := hall.current d hd
  have hkind : d.kind = kind := hfile.kind_eq
  have hbaseOf : d.base = base := hfile.base_eq
  have hpath : d.path = path := hfile.path_eq
  have hkept : d.preview = OpenDocument.buildPreview kind base d.current := by
    rw [← hkind, ← hbaseOf]
    exact run_isUpToDate s path kind base document steps hd
  refine ⟨d, hd, hpath, ?_, ?_⟩
  · rw [hkept]
    cases kind with
    | mob => rfl
    | patch =>
      cases base with
      | none => rfl
      | some b => exact (Value.merge_table b d.current).symm
  · rintro root baseFile patchFile b base' patch' rfl rfl hname hparse hsame rfl hparse' hsame'
    have hmerged : Value.Reordered (.table (Value.overlay base' patch')) (.table d.preview) := by
      rw [hkept]
      exact Value.Reordered.overlay
        ⟨SourceFile.wellKeyed_of_parse hparse, hbase b rfl, hsame⟩
        ⟨SourceFile.wellKeyed_of_parse hparse', hcurrent, hsame'⟩
    have hparses : ∀ f ∈ [baseFile], ∃ t, f.parse = .ok t := by
      rw [List.forall_mem_singleton]
      exact ⟨base', hparse⟩
    obtain ⟨r, hr, -⟩ := exists_resolve (s := ⟨[baseFile], [], [patchFile]⟩) root hparses
    have hdefinition := Sources.definition?_patched hname rfl hparse hparse'
    rw [← hpath] at hdefinition ⊢
    obtain ⟨hvalue, hshown⟩ :=
      Resolution.shownBy hr hdefinition hmerged hkind (by rw [hbaseOf]; rfl)
    exact ⟨r, hr, hvalue, hshown⟩

/-- A patch of a mob, edited, with the edit undone and redone, below another root than usual. -/
theorem Session.run_isLoaded_moon :
    let moon : Table Value := [("name", .text "moon")]
    let patch (sprite : String) : Table Value := [("sprite", .text sprite)]
    let steps : List SessionStep :=
      [.edit "paint" fun t => .ok (.table (t.set "sprite" (.text "b.png"))), .undo, .redo]
    let now := ((start 5).open "assets/moon.mobpatch" .patch (some moon) (patch "a.png")).run steps
    let baseFile : SourceFile := ⟨"assets/moon.mob", .text "name = \"moon\"\n"⟩
    let patchFile : SourceFile := ⟨"assets/moon.mobpatch", .text "sprite = \"b.png\"\n"⟩
    ∃ d r, now.document = some d ∧
      d.preview = [("name", .text "moon"), ("sprite", .text "b.png")] ∧
      resolve "assets/" ⟨[baseFile], [], [patchFile]⟩ = .ok r ∧
      r.values.get? "moon" = some [("name", .text "moon"), ("sprite", .text "b.png")] ∧
      r.ShownBy "assets/" d := by
  intro moon patch steps now baseFile patchFile
  have hmoon : ∀ b, some moon = some b → WellKeyed (.table b) := by
    rintro b ⟨⟩
    simp [moon, WellKeyed, Data.EntriesWellKeyed, Table.keys]
  have hpatch : WellKeyed (.table (patch "a.png")) := by
    simp [patch, WellKeyed, Data.EntriesWellKeyed, Table.keys]
  have hsteps : ∀ x ∈ steps, x.IsKeyed := by
    rw [List.forall_mem_cons]
    refine ⟨fun t v ht hv => ?_, by simp [SessionStep.IsKeyed]⟩
    cases hv
    exact ht.set (d := .text "b.png") trivial "sprite"
  obtain ⟨d, hd, -, -, hloaded⟩ := run_isLoaded (start 5) "assets/moon.mobpatch" .patch hmoon
    hpatch steps hsteps
  obtain rfl : ⟨"assets/moon.mobpatch", .patch, some moon, patch "b.png", patch "a.png",
    [("name", .text "moon"), ("sprite", .text "b.png")]⟩ = d := Option.some.inj hd
  obtain ⟨r, hr, hvalue, hshown⟩ := hloaded "assets/" baseFile patchFile moon moon (patch "b.png")
    rfl rfl (by decide) (by cbv) (by rfl) rfl (by cbv) (by rfl)
  exact ⟨_, r, hd, rfl, hr, hvalue, hshown⟩

end Bestiary
