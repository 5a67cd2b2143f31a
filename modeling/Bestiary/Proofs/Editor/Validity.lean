import Bestiary.Proofs.Data.Merge
import Bestiary.Proofs.Editor.Snapshots
import Bestiary.Proofs.Mob.Check
import Bestiary.Proofs.Schema.Accepts
import Bestiary.Proofs.Tree.CommandEdit

/-!
# Structural edits keep documents valid

Whether a document is valid depends on its behavior tree in one way only: the tree has to be sound.
The schema takes any tree, and the checks of the other fields do not look at it.

* `OpenDocument.isValid_iff` says when a document is valid.
* `OpenDocument.IsValid.set_behavior`: with another sound tree, a valid document is valid.
* `Session.structural_isValid`: no sequence of structural edits, undos and redos makes a valid
  document invalid, or changes anything but its tree.
-/

namespace Bestiary

/-! ## Verdicts without errors -/

namespace Check

/-- Warnings can always be worded. -/
theorem isWordable_of_warning {p : Problem} (h : p.severity = .warning) : p.isWordable = true := by
  cases p <;> first | rfl | exact absurd h (by simp [Problem.severity])

/-- Without errors, there is a verdict. -/
theorem validate_of_errorFree {isPatch : Bool} {v : Value} (h : ErrorFree (document isPatch v)) :
    validate isPatch v = .ok ⟨document isPatch v⟩ := by
  unfold validate
  have hnone : (document isPatch v).find? (fun r => !r.problem.isWordable) = none := by
    rw [List.find?_eq_none]
    intro r hr
    simp [isWordable_of_warning (h r hr)]
  simp only [hnone]

theorem errorFree_document_iff {isPatch : Bool} {entries : Table Value} :
    ErrorFree (document isPatch (.table entries)) ↔
      (∀ k ∈ entries.keys, k ∈ Definition.fieldKeys) ∧ ErrorFree (name isPatch entries) ∧
        ∀ f ∈ fieldChecks, ErrorFree (entry entries f.1 f.2 []) := by
  have hunknown : ErrorFree (unknownFields entries) ↔
      ∀ k ∈ entries.keys, k ∈ Definition.fieldKeys := by
    rw [← Record.unknownKeys_eq_nil_iff]
    unfold unknownFields ErrorFree
    cases Record.unknownKeys Definition.fieldKeys entries <;> simp [Problem.severity]
  unfold document
  simp only [errorFree_append, hunknown, errorFree_flatMap, and_assoc]

end Check

theorem Verdict.isValid_iff {v : Verdict} : v.isValid = true ↔ Check.ErrorFree v.remarks := by
  unfold isValid
  rw [decide_eq_true_iff, errorCount_eq_zero_iff]

namespace OpenDocument

/-- There is a verdict on the document, and it has no errors. -/
def IsValid (d : OpenDocument) : Prop := ∃ v, d.validate = .ok v ∧ v.isValid = true

/-- **A document is valid** iff the checks find no error and the schema has nothing against it. -/
theorem isValid_iff {d : OpenDocument} :
    d.IsValid ↔
      Check.ErrorFree (Check.document (decide (d.kind = .patch)) (.table d.current)) ∧
        d.refusal? = none := by
  unfold IsValid validate
  constructor
  · rintro ⟨v, hv, hvalid⟩
    obtain ⟨w, hw, hv⟩ := Except.bind_eq_ok_iff.mp hv
    rw [← remarks_of_validate hw]
    split at hv
    · rename_i hwvalid
      cases hr : d.refusal? with
      | none => exact ⟨Verdict.isValid_iff.mp hwvalid, rfl⟩
      | some e =>
        simp only [hr] at hv
        obtain rfl := Except.ok.inj hv
        have herrors := Verdict.isValid_iff.mp hvalid
        rw [Check.errorFree_append] at herrors
        exact absurd (herrors.2 _ (List.mem_singleton.mpr rfl)) (by simp [Problem.severity])
    · rename_i hwvalid
      obtain rfl := Except.ok.inj hv
      exact absurd hvalid hwvalid
  · rintro ⟨herrors, hrefusal⟩
    have hvalid : Verdict.isValid ⟨Check.document (decide (d.kind = .patch)) (.table d.current)⟩ =
        true := Verdict.isValid_iff.mpr herrors
    refine ⟨_, ?_, hvalid⟩
    rw [Check.validate_of_errorFree herrors]
    simp only [bind, Except.bind, hvalid, if_true, hrefusal]
    rfl

/-- What the schema demands: of a mob, that it is one; of a patch, that it names nothing else, and
that it makes a mob of its base, if it has one. -/
theorem refusal?_eq_none_iff {d : OpenDocument} :
    d.refusal? = none ↔
      match d.kind with
      | .mob => Definition.schema.Accepts (.table d.current)
      | .patch => Definition.patchSchema.Accepts (.table d.current) ∧
        (d.base.isSome → Definition.schema.Accepts (.table d.preview)) := by
  unfold refusal?
  cases d.kind with
  | mob =>
    simp only [← Definition.read_ok_iff d.entity]
    cases Definition.read d.entity (.table d.current) <;> simp
  | patch =>
    simp only [← Definition.read_ok_iff d.entity,
      ← Definition.readPatch_ok_iff d.entity]
    cases Definition.readPatch d.entity (.table d.current) with
    | error e => simp [bind, Except.bind]
    | ok m =>
      cases d.base with
      | none => simp [bind, Except.bind, pure, Except.pure]
      | some base =>
        cases Definition.read d.entity (.table d.preview) <;> simp [bind, Except.bind]

end OpenDocument

namespace Check

/-- What is checked of a behavior tree is the check of its root. -/
theorem eq_node_of_mem_fieldChecks {check : FieldPath → Value → List Remark}
    (h : ("behavior", check) ∈ fieldChecks) : check = node := by
  simpa [fieldChecks, pointFields, positiveFields] using h

/-- With another sound tree, the checks still find no error. -/
theorem errorFree_set_behavior {isPatch : Bool} {entries : Table Value} {tree : Value}
    (h : ErrorFree (document isPatch (.table entries))) (htree : Tree.Sound tree) :
    ErrorFree (document isPatch (.table (entries.set "behavior" tree))) := by
  rw [errorFree_document_iff] at h ⊢
  obtain ⟨hkeys, hname, hfields⟩ := h
  refine ⟨?_, ?_, ?_⟩
  · intro k hk
    rcases Table.mem_keys_set.mp hk with rfl | hk
    · decide
    · exact hkeys k hk
  · unfold name at hname ⊢
    rw [Table.get?_set, if_neg (by decide)]
    exact hname
  · rintro ⟨field, check⟩ hf
    by_cases hb : field = "behavior"
    · subst hb
      obtain rfl := eq_node_of_mem_fieldChecks hf
      unfold entry
      simp only [Table.get?_set, if_true]
      exact (errorFree_node_iff _ _).mpr htree
    · have hfield := hfields _ hf
      unfold entry at hfield ⊢
      rw [Table.get?_set, if_neg (Ne.symm hb)]
      exact hfield

/-- The tree of a document without errors is sound. -/
theorem sound_of_errorFree {isPatch : Bool} {entries : Table Value} {tree : Value}
    (h : ErrorFree (document isPatch (.table entries)))
    (htree : entries.get? "behavior" = some tree) : Tree.Sound tree := by
  have hmem : ("behavior", node) ∈ fieldChecks := by
    simp [fieldChecks, pointFields, positiveFields]
  have hentry := (errorFree_document_iff.mp h).2.2 _ hmem
  unfold entry at hentry
  simp only [htree] at hentry
  exact (errorFree_node_iff _ _).mp hentry

end Check

namespace OpenDocument

/-- **With another sound tree, a valid document is valid.** -/
theorem IsValid.set_behavior {d : OpenDocument} {t : Table Value} (h : (d.replace t).IsValid)
    {tree tree' : Value} (htree : t.get? "behavior" = some tree)
    (hsound : Tree.Sound tree → Tree.Sound tree') :
    (d.replace (t.set "behavior" tree')).IsValid := by
  rw [isValid_iff] at h ⊢
  obtain ⟨herrors, hrefusal⟩ := h
  have hagree := Table.agreeBut_set t "behavior" tree'
  have hsound' : Tree.Sound tree' := hsound (Check.sound_of_errorFree herrors htree)
  refine ⟨Check.errorFree_set_behavior herrors hsound', ?_⟩
  rw [refusal?_eq_none_iff] at hrefusal ⊢
  unfold replace at hrefusal ⊢
  cases hkind : d.kind with
  | mob =>
    simp only [hkind] at hrefusal ⊢
    exact Definition.schema_accepts_of_agree hagree hrefusal
  | patch =>
    simp only [hkind] at hrefusal ⊢
    refine ⟨Definition.patchSchema_accepts_of_agree hagree hrefusal.1, fun hbase => ?_⟩
    refine Definition.schema_accepts_of_agree ?_ (hrefusal.2 hbase)
    obtain ⟨base, hsome⟩ := Option.isSome_iff_exists.mp hbase
    unfold buildPreview
    simp only [hsome, Table.set_of_get? htree]
    exact Table.AgreeBut.overlay_replace (fun _ _ => rfl) _ _

end OpenDocument

/-! ## Runs of structural edits -/

/-- A structural edit, run on the behavior tree of the document, or a step through its history. -/
inductive StructuralStep where
  | edit (label : String) (e : StructuralEdit)
  | undo
  | redo

/-- The operation that a structural step is. -/
def StructuralStep.toStep : StructuralStep → SessionStep
  | .edit label e => .editBehavior label fun root => .ok (e.apply root)
  | .undo => .undo
  | .redo => .redo

/-- When the document was saved last does not matter to whether it is valid. -/
theorem OpenDocument.IsValid.of_replace {d d' : OpenDocument}
    (h : (d.replace d'.current).IsValid) (hfile : d.SameFile d') (hfresh : d'.IsUpToDate) :
    d'.IsValid := by
  obtain ⟨path, kind, base, current, saved, preview⟩ := d
  obtain ⟨path', kind', base', current', saved', preview'⟩ := d'
  obtain ⟨rfl, rfl, rfl, -⟩ := hfile
  obtain rfl : preview' = buildPreview kind' base' current' := hfresh
  exact h

namespace Session

/-- The document `d` with `t` as its current state is valid, and differs from what it was in
nothing but its tree. -/
def ValidBut (d : OpenDocument) (t : Table Value) : Prop :=
  (d.replace t).IsValid ∧ t.erase "behavior" = d.current.erase "behavior"

/-- **One structural step** keeps a valid document valid and its other entries as they are. -/
theorem keeps_validBut (d : OpenDocument) (x : StructuralStep) :
    x.toStep.change.Keeps (ValidBut d) := by
  cases x with
  | edit label e =>
    rintro t u ⟨hvalid, herase⟩ hu
    unfold behaviorEdited? at hu
    cases htree : t.get? "behavior" with
    | none => exact absurd hu (by simp [htree])
    | some tree =>
      simp only [htree] at hu
      split at hu
      · exact absurd hu (by simp)
      · obtain rfl := Option.some.inj hu
        exact ⟨hvalid.set_behavior htree e.sound_apply,
          (Table.erase_set t "behavior" _).trans herase⟩
  | undo => exact trivial
  | redo => exact trivial

/-- **Structural edits never make a valid document invalid.** A document is opened with a valid
verdict; after any structural edits, undos and redos, in any order and addressed anywhere, there is
a valid verdict, and every entry but the behavior tree is what it was. -/
theorem structural_isValid {s : Session} {path : String} {kind : DocumentKind}
    {base : Option (Table Value)} {document : Table Value} {v : Verdict}
    (hopen : (s.open path kind base document).validate = .ok v) (hv : v.isValid = true)
    (steps : List StructuralStep) :
    let now := (s.open path kind base document).run (steps.map StructuralStep.toStep)
    (∃ w, now.validate = .ok w ∧ w.isValid = true) ∧
      ∃ d, now.document = some d ∧ d.current.erase "behavior" = document.erase "behavior" := by
  intro now
  let d₀ : OpenDocument := .opened path kind base document
  have hd₀ : (s.open path kind base document).document = some d₀ := rfl
  have hfirst : (s.open path kind base document).AllHold (ValidBut d₀) :=
    AllHold.open s path kind base ⟨⟨v, hopen, hv⟩, rfl⟩
  have hkeeps : ∀ x ∈ steps.map StructuralStep.toStep, x.change.Keeps (ValidBut d₀) := by
    intro x hx
    obtain ⟨y, -, rfl⟩ := List.mem_map.mp hx
    exact keeps_validBut d₀ y
  obtain ⟨hall, d, hd, hsame⟩ := run_allHold _ hkeeps hd₀ hfirst
  obtain ⟨hvalid, herase⟩ := hall.current d hd
  have hfresh : d.IsUpToDate := hsame.isUpToDate (OpenDocument.isUpToDate_opened ..)
  obtain ⟨w, hw, hwv⟩ := hvalid.of_replace hsame hfresh
  refine ⟨⟨w, ?_, hwv⟩, d, hd, herase⟩
  unfold validate
  rw [hd]
  exact hw

/-- A small valid mob with a node of a type that is not known, edited out of range, retyped, undone
and redone. -/
theorem structural_isValid_orbit :
    let opened := (start 5).open "mobs/m.mob" .mob none
      [("name", .text "m"), ("behavior", .table [("type", .text "Orbit")])]
    (∃ v, opened.validate = .ok v ∧ v.isValid = true) ∧
      ∃ w, (opened.run ([.edit "a" (.fillSlot [] (-3)), .edit "b" (.retype [] .ifThen), .undo,
        .redo].map StructuralStep.toStep)).validate = .ok w ∧ w.isValid = true := by
  have hopen : ((start 5).open "mobs/m.mob" .mob none
      [("name", .text "m"), ("behavior", .table [("type", .text "Orbit")])]).validate =
        .ok ⟨[⟨[.key "behavior", .key "type"], .unknownType "Orbit"⟩]⟩ := rfl
  exact ⟨⟨_, hopen, rfl⟩, (structural_isValid hopen rfl _).1⟩

end Session

end Bestiary
