import Bestiary.Proofs.Editor.Messages
import Bestiary.Proofs.Mob.Wordable

/-!
# Which calls of a session return

A call of a session returns unless it has to word what cannot be worded. That is either of two
things. Validating and saving word a verdict, and there is one unless a command of the behavior tree
names an action by something that cannot be shown. Editing and saving catch what is thrown and word
it for the log, where it may be a thing of that kind itself.

* `OpenDocument.ShowsActions` says that the actions of a document can be shown.
* `Session.CatchesWordable` says of a call that what it catches can be worded.
* `Session.Returns` says of a call that it returns.
* `Session.returns_iff` says when it does, and what is left of a call that has failed.
-/

namespace Bestiary

namespace OpenDocument

/-- What the commands of the behavior tree name as their actions can be shown. -/
def ShowsActions (d : OpenDocument) : Prop :=
  ∀ tree, d.current.get? "behavior" = some tree → ∀ a, Tree.HoldsAction tree a → ¬a.Unshowable

/-- **There is a verdict on a document** iff its actions can be shown. -/
theorem exists_validate_iff {d : OpenDocument} : (∃ v, d.validate = .ok v) ↔ d.ShowsActions := by
  have hchecks : (∃ v, Bestiary.validate (decide (d.kind = .patch)) (.table d.current) = .ok v) ↔
      d.ShowsActions := by
    rw [Bestiary.exists_validate_iff, Check.wordable_document_iff]
    unfold ShowsActions
    simp only [← Value.not_isShowable_iff, not_not]
  rw [← hchecks]
  unfold OpenDocument.validate
  constructor
  · rintro ⟨v, hv⟩
    obtain ⟨w, hw, -⟩ := Except.bind_eq_ok_iff.mp hv
    exact ⟨w, hw⟩
  · rintro ⟨w, hw⟩
    rw [hw]
    simp only [bind, Except.bind]
    split
    · cases d.refusal? <;> exact ⟨_, rfl⟩
    · exact ⟨_, rfl⟩

end OpenDocument

/-! ## What is thrown -/

/-- What was thrown can be worded: it is an error, or data that can be shown, or anything else that
can be converted to a text. -/
def Thrown.IsWordable : Thrown → Prop
  | .error _ => True
  | .data v => ¬v.Unshowable
  | .other text? => text?.isSome

theorem Thrown.isWordable_iff {e : Thrown} :
    e.IsWordable ↔ ∃ message, e.message? = some message := by
  cases e with
  | error message => simp [IsWordable, message?]
  | data v =>
    have hshown : ¬v.Unshowable ↔ v.isShowable = true := by
      rw [← Value.not_isShowable_iff, not_not]
    exact hshown.trans Option.isSome_iff_exists
  | other text? => exact Option.isSome_iff_exists

/-- An outcome is caught unless it is thrown and cannot be worded. -/
theorem exists_caught_iff {α : Type} {x : Except Thrown α} :
    (∃ y, caught x = .ok y) ↔ ∀ e, x = .error e → e.IsWordable := by
  cases x with
  | ok a => simp [caught]
  | error e =>
    simp only [Except.error.injEq, forall_eq', Thrown.isWordable_iff, caught]
    cases e.message? <;> simp

theorem exists_map_iff {ε α β : Type} {x : Except ε α} {f : α → β} :
    (∃ b, x.map f = .ok b) ↔ ∃ a, x = .ok a := by
  cases x <;> simp [Except.map]

theorem exists_toOption_iff {ε α : Type} {x : Except ε α} :
    (∃ a, x.toOption = some a) ↔ ∃ a, x = .ok a := by
  cases x <;> simp [Except.toOption]

/-! ## Calls -/

/-- The call asks for a verdict. -/
def SessionCall.AsksVerdict : SessionCall → Prop
  | .step .validate => True
  | .step (.save _ _) => True
  | _ => False

namespace Session

variable {s : Session}

/-- The call returns: with a verdict if that is what it is for, else with what it comes to. -/
def Returns (s : Session) : SessionCall → Prop
  | .step .validate => ∃ v, s.validate = .ok v
  | c => ∃ r, s.outcome? c = some r

/-- The actions of the open document can be shown, if there is one. -/
def ShowsActions (s : Session) : Prop := ∀ d, s.document = some d → d.ShowsActions

/-- What the call catches can be worded: what an edit throws on the open document, an edit of the
behavior tree on the tree, and a writer on the text of a valid document. -/
def CatchesWordable (s : Session) : SessionCall → Prop
  | .step (.edit _ f) =>
    ∀ d, s.document = some d → ∀ e, f d.current = .error e → e.IsWordable
  | .step (.editBehavior _ f) =>
    ∀ d, s.document = some d → ∀ tree, d.current.get? "behavior" = some tree →
      ∀ e, f tree = .error e → e.IsWordable
  | .step (.save numeral write) =>
    ∀ d, s.document = some d → d.IsValid → ∀ text, Toml.writeWith numeral d.current = .ok text →
      ∀ e, write d.path text = .error e → e.IsWordable
  | _ => True

theorem exists_validate_iff : (∃ v, s.validate = .ok v) ↔ s.ShowsActions := by
  unfold validate ShowsActions
  cases s.document with
  | none => simp
  | some d => simpa using d.exists_validate_iff

/-- An edit returns unless it throws what cannot be worded. -/
theorem exists_edit_iff (label : String) (f : Table Value → Except Thrown Value) :
    (∃ r, s.editCatching label f = .ok r) ↔
      ∀ d, s.document = some d → ∀ e, f d.current = .error e → e.IsWordable := by
  unfold editCatching
  cases s.document with
  | none => simp
  | some d =>
    simp only [Option.some.injEq, forall_eq']
    exact exists_map_iff.trans exists_caught_iff

/-- So does an edit of the behavior tree. -/
theorem exists_editBehavior_iff (label : String) (f : Value → Except Thrown Value) :
    (∃ r, s.editBehaviorCatching label f = .ok r) ↔
      ∀ d, s.document = some d → ∀ tree, d.current.get? "behavior" = some tree →
        ∀ e, f tree = .error e → e.IsWordable := by
  unfold editBehaviorCatching lacksBehavior
  cases hd : s.document with
  | none => simpa [hd] using exists_edit_iff (s := s) label (onBehavior f)
  | some d =>
    simp only [Option.any_some, Option.some.injEq, forall_eq']
    cases htree : d.current.get? "behavior" with
    | none => simp [Table.has, htree]
    | some tree =>
      rw [if_neg (by simp [Table.has, htree]), exists_edit_iff, hd]
      simp only [Option.some.injEq, forall_eq', onBehavior, htree]
      cases f tree <;> simp [Except.map]

/-- Before its writer is called, a save ends without a verdict iff there is none. -/
theorem exists_attempt_iff (numeral : Number → String) :
    (∃ e, s.attempt numeral = .error (.error e)) ↔ ¬∃ v, s.validate = .ok v := by
  unfold attempt validate
  cases s.document with
  | none => simp
  | some d =>
    simp only
    cases d.validate with
    | error e => simp
    | ok v =>
      refine iff_of_false ?_ fun h => h ⟨v, rfl⟩
      simp only
      split_ifs
      · cases Toml.writeWith numeral d.current <;> simp
      · simp

/-- A save returns iff there is a verdict, and its writer throws nothing that cannot be worded. -/
theorem exists_save_iff (numeral : Number → String)
    (write : (path text : String) → Except Thrown Unit) :
    (∃ r, Id.run (s.saveCatching numeral write) = .ok r) ↔
      s.ShowsActions ∧ s.CatchesWordable (.step (.save numeral write)) := by
  have hcatches : s.CatchesWordable (.step (.save numeral write)) ↔
      ∀ p, s.attempt numeral = .ok p → ∀ e, write p.1.path p.2 = .error e → e.IsWordable := by
    simp only [CatchesWordable, Prod.forall, attempt_eq_ok_iff]
    refine forall_congr' fun d => ⟨fun h text ⟨hd, hvalid, htext⟩ => h hd ?_ text htext,
      fun h hd hvalid text htext => h text ⟨hd, ?_, htext⟩⟩
    · rwa [validate, hd] at hvalid
    · rwa [validate, hd]
  rw [hcatches, ← exists_validate_iff, saveCatching_eq]
  have hverdict := exists_attempt_iff (s := s) numeral
  cases ha : s.attempt numeral with
  | error result =>
    rw [ha] at hverdict
    cases result <;> simpa [Except.mapError] using hverdict
  | ok handed =>
    obtain ⟨-, ⟨v, hv, -⟩, -⟩ := attempt_eq_ok_iff.mp ha
    simp only [Except.ok.injEq, forall_eq', hv, exists_eq', true_and]
    exact exists_map_iff.trans exists_caught_iff

/-- **Calls return unless they have to word what cannot be worded.** A call of a session returns iff
two things hold. If it is a validation or a save, every action that a command of the behavior tree
names can be shown: it is no table with an entry `toString`, and no list with such a table in it.
And what its edit or its writer throws, if it throws anything, is not data of that kind, and nothing
else that cannot be converted to a text. A call that has failed leaves the failure in the log and
nothing else. -/
theorem returns_iff (s : Session) (c : SessionCall) :
    (s.Returns c ↔ (c.AsksVerdict → s.ShowsActions) ∧ s.CatchesWordable c) ∧
      ∀ now, s.outcome? c = some (false, now) →
        ∃ level message, level ≠ .success ∧ now = s.say level message := by
  refine ⟨?_, fun now h => (leaves_of_outcome? h).of_false⟩
  cases c with
  | «open» path kind base document => exact iff_of_true ⟨_, rfl⟩ ⟨False.elim, trivial⟩
  | step x =>
    cases x with
    | edit label f =>
      have hedit := exists_toOption_iff.trans (exists_edit_iff (s := s) label f)
      exact hedit.trans (and_iff_right False.elim).symm
    | editBehavior label f =>
      have hedit := exists_toOption_iff.trans (exists_editBehavior_iff (s := s) label f)
      exact hedit.trans (and_iff_right False.elim).symm
    | validate =>
      have hverdict := exists_validate_iff (s := s).trans (forall_const True).symm
      exact hverdict.trans (and_iff_left trivial).symm
    | save numeral write =>
      have hsave := exists_toOption_iff.trans (exists_save_iff (s := s) numeral write)
      exact hsave.trans (and_congr_left' (forall_const True).symm)
    | _ => exact iff_of_true ⟨_, rfl⟩ ⟨False.elim, trivial⟩

/-- A moth that does one thing, whatever it is. -/
def mothDoing (action : Value) : Table Value :=
  [("name", .text "moth"),
    ("behavior", .table [("type", .text "Action"), ("name", .text "flutter"),
      ("behaviors", .list [.table [("action", action)]])])]

/-- An action that is a list of texts can be shown: it is remarked on, and every call returns whose
edit or writer throws nothing but errors and such lists. -/
theorem returns_iff_moth :
    let s := (start 5).open "mobs/moth.mob" .mob none (mothDoing (.texts ["Dive", "Dive"]))
    s.Returns (.step .validate) ∧
      (∀ message, s.Returns (.step (.save Number.text fun _ _ => .error (.error message)))) ∧
      s.Returns (.step (.edit "Tangle" fun _ => .error (.data (.texts ["wing", "wing"])))) ∧
      ∃ now, s.outcome? (.step .undo) = some (false, now) ∧
        ∃ level message, level ≠ .success ∧ now = s.say level message := by
  intro s
  have hshown : s.ShowsActions := exists_validate_iff.mp ⟨_, rfl⟩
  have hwings : Thrown.IsWordable (.data (.texts ["wing", "wing"])) :=
    Thrown.isWordable_iff.mpr ⟨_, rfl⟩
  refine ⟨(returns_iff s _).1.mpr ⟨fun _ => hshown, trivial⟩,
    fun message => (returns_iff s _).1.mpr ⟨fun _ => hshown, ?_⟩,
    (returns_iff s _).1.mpr ⟨False.elim, ?_⟩, _, rfl, (returns_iff s (.step .undo)).2 _ rfl⟩
  · rintro d - - text - e ⟨⟩
    exact trivial
  · rintro d - e ⟨⟩
    exact hwings

/-- An action that hides its text cannot be shown: neither validating nor saving returns. And where
a table that hides its text is thrown, neither an edit nor a save of a sound document does. -/
theorem not_returns_moth :
    let hidden : Value := .table [("toString", .natural 1)]
    let s := (start 5).open "mobs/moth.mob" .mob none (mothDoing hidden)
    let calm := (start 5).open "mobs/moth.mob" .mob none [("name", .text "moth")]
    (¬s.Returns (.step .validate) ∧ ∀ numeral write, ¬s.Returns (.step (.save numeral write))) ∧
      ¬calm.Returns (.step (.edit "Tangle" fun _ => .error (.data hidden))) ∧
      ¬calm.Returns (.step (.save Number.text fun _ _ => .error (.data hidden))) := by
  intro hidden s calm
  have hverdict : ∃ e, s.validate = .error e := ⟨_, rfl⟩
  obtain ⟨e, he⟩ := hverdict
  refine ⟨⟨?_, fun numeral write => ?_⟩, ?_, ?_⟩
  · rintro ⟨v, hv⟩
    exact absurd (he.symm.trans hv) (by simp)
  · have hsave : s.outcome? (.step (.save numeral write)) = none := rfl
    rintro ⟨r, hr⟩
    exact absurd (hsave.symm.trans hr) (by simp)
  · rintro ⟨r, ⟨⟩⟩
  · have hsave :
        calm.outcome? (.step (.save Number.text fun _ _ => .error (.data hidden))) = none := rfl
    rintro ⟨r, hr⟩
    exact absurd (hsave.symm.trans hr) (by simp)

end Session

end Bestiary
