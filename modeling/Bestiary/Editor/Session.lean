import Bestiary.Behavior.Compile
import Bestiary.Data.Equal
import Bestiary.Data.Merge
import Bestiary.Editor.History
import Bestiary.Editor.StatusLog
import Bestiary.Mob.Check
import Bestiary.Toml.Writer

/-!
# Editor sessions

A session edits one document at a time. It keeps the document as it was opened or last saved, the
definition that the document stands for, the history of edits, and a log to which every operation
adds one message. An operation that fails changes nothing else.

Edits and writers are functions that a session is given, and they may throw. What they throw is
caught and worded for the log; wording it may throw in turn, and that is not caught.

* `Session.open`, `Session.editCatching`, `Session.editBehaviorCatching`, `Session.undo`,
  `Session.redo` and `Session.saveCatching` are the operations; those that can fail also give
  whether they succeeded.
* `Session.edit`, `Session.editBehavior` and `Session.save` are those with functions that throw
  errors only, by their messages.
* `Session.validate` checks the document.
-/

namespace Bestiary

/-! ## What is thrown -/

/-- What a function that a session is given may throw. -/
inductive Thrown where
  /-- An error, with its message. -/
  | error (message : String)
  /-- Data, which is worded as it is in other messages. -/
  | data (v : Value)
  /-- Anything else, with the text that it is converted to, unless converting it throws. -/
  | other (text? : Option String)

/-- The text of what was thrown in a message; none if wording it throws. -/
def Thrown.message? : Thrown → Option String
  | .error message => some message
  | .data v => Value.display? v
  | .other text? => text?

/-- What leaves a call of a session as an exception. -/
inductive Escape where
  /-- The verdict on the document cannot be worded. -/
  | verdict (e : Unwordable)
  /-- What was thrown and caught cannot be worded. -/
  | thrown (e : Thrown)

/-- The outcome of a function that may throw, with the message of what was caught. -/
def caught {α : Type} : Except Thrown α → Except Escape (Except String α)
  | .ok a => .ok (.ok a)
  | .error e =>
    match e.message? with
    | some message => .ok (.error message)
    | none => .error (.thrown e)

/-! ## The document -/

/-- The document of a session. -/
structure OpenDocument where
  path : String
  kind : DocumentKind
  /-- The definition that a patch is laid over. -/
  base : Option (Table Value)
  current : Table Value
  /-- The document as it was opened or last saved. -/
  saved : Table Value
  /-- The definition that the document stands for. It is built when a document takes the place of
  another one, and kept until then. -/
  preview : Table Value

namespace OpenDocument

/-- The definition that a document stands for: a patch laid over its base, or the document. -/
def buildPreview (kind : DocumentKind) (base : Option (Table Value)) (current : Table Value) :
    Table Value :=
  match kind, base with
  | .patch, some base => Value.overlay base current
  | _, _ => current

/-- A document that was just opened. -/
def opened (path : String) (kind : DocumentKind) (base : Option (Table Value))
    (document : Table Value) : OpenDocument :=
  ⟨path, kind, base, document, document, buildPreview kind base document⟩

/-- Another document in place of the current one. -/
def replace (d : OpenDocument) (next : Table Value) : OpenDocument :=
  { d with current := next, preview := buildPreview d.kind d.base next }

/-- Whether the document differs from the one that was opened or last saved. -/
def isModified (d : OpenDocument) : Bool := !Value.same (.table d.current) (.table d.saved)

/-- Whether a field differs from what was opened or last saved. -/
def isFieldModified (d : OpenDocument) (field : String) : Bool :=
  !Value.agree (d.current.get? field) (d.saved.get? field)

/-- The plan of the behavior tree of the definition, if it has one. -/
def compiled? (d : OpenDocument) : Option Compiled :=
  (d.preview.get? "behavior").map fun v => (Node.read v).compile

/-- The name of the mob. -/
def entity (d : OpenDocument) : String := nameOf defaultRoot d.path

/-- What the schema has against the document, or against what a patch makes of its base. -/
def refusal? (d : OpenDocument) : Option DefinitionError :=
  let read := match d.kind with
    | .mob => Definition.read d.entity (.table d.current)
    | .patch => do
      let patch ← Definition.readPatch d.entity (.table d.current)
      match d.base with
      | some _ => Definition.read d.entity (.table d.preview)
      | none => pure patch
  match read with
  | .ok _ => none
  | .error e => some e

/-- The verdict on the document: that of the checks, and without an error of theirs also that of
the schema. -/
def validate (d : OpenDocument) : Except Unwordable Verdict := do
  let v ← Bestiary.validate (d.kind = .patch) (.table d.current)
  if v.isValid then
    match d.refusal? with
    | none => pure v
    | some e => pure ⟨v.remarks ++ [⟨e.place, .refused e⟩]⟩
  else pure v

end OpenDocument

/-- A new mob: a name, one collider, no sprite. -/
def newMob (name : String) : Table Value :=
  [("name", .text name), ("spawnable", .flag true), ("health", .natural 50),
    ("colliders", .list [Definition.defaultCollider])]

/-- An editor at work. -/
structure Session where
  history : History (Table Value)
  log : StatusLog
  document : Option OpenDocument

namespace Session

/-- A session before a document is opened. -/
def start (historyLimit : Nat) : Session :=
  ⟨.empty historyLimit, .empty StatusLog.defaultLimit, none⟩

/-- The session with a message in the log. -/
def say (s : Session) (level : Level) (message : String) : Session :=
  { s with log := s.log.push level message }

/-- A failure, with its message. -/
def fail (s : Session) (message : String) : Bool × Session := (false, s.say .error message)

/-- Nothing done, with the reason. -/
def decline (s : Session) (reason : String) : Bool × Session := (false, s.say .warning reason)

/-- A document opened in place of the one before. -/
def «open» (s : Session) (path : String) (kind : DocumentKind) (base : Option (Table Value))
    (document : Table Value) : Session :=
  { s with
    history := s.history.clear
    document := some (.opened path kind base document) }.say .success s!"Opened {path}"

/-- A new mob opened. -/
def openNew (s : Session) (name path : String) : Session := s.open path .mob none (newMob name)

/-- The session with another current document and another history. -/
def withCurrent (s : Session) (d : OpenDocument) (history : History (Table Value))
    (current : Table Value) : Session :=
  { s with history, document := some (d.replace current) }

/-! ## Edits -/

/-- What an edit of the document comes to, by the next document or the message that it gave. -/
def edited (s : Session) (label : String) (d : OpenDocument) : Except String Value → Bool × Session
  | .error message => s.fail s!"{label} failed: {message}"
  | .ok (.table next) =>
    if Value.same (.table next) (.table d.current) then s.decline s!"{label}: nothing changed"
    else (true, (s.withCurrent d (s.history.push d.current) next).say .success label)
  | .ok _ => s.fail s!"{label} failed: document root must be a table"

/-- The document edited as a whole, by a function that may throw anything. -/
def editCatching (s : Session) (label : String) (f : Table Value → Except Thrown Value) :
    Except Escape (Bool × Session) :=
  match s.document with
  | none => .ok (s.fail s!"{label}: no document open")
  | some d => (caught (f d.current)).map (s.edited label d)

/-- The document edited as a whole. The edit gives the next document, or a message. -/
def edit (s : Session) (label : String) (f : Table Value → Except String Value) : Bool × Session :=
  match s.document with
  | none => s.fail s!"{label}: no document open"
  | some d => s.edited label d (f d.current)

/-- Whether the open document has no behavior tree. -/
def lacksBehavior (s : Session) : Bool := s.document.any fun d => !d.current.has "behavior"

/-- The edit of a document that an edit of its behavior tree is. -/
def onBehavior {ε : Type} (f : Value → Except ε Value) (t : Table Value) : Except ε Value :=
  match t.get? "behavior" with
  | none => .ok (.table t)
  | some tree => (f tree).map fun tree => .table (t.set "behavior" tree)

/-- The behavior tree of the document edited, by a function that may throw anything. -/
def editBehaviorCatching (s : Session) (label : String) (f : Value → Except Thrown Value) :
    Except Escape (Bool × Session) :=
  if s.lacksBehavior then .ok (s.fail s!"{label}: document has no behavior tree")
  else s.editCatching label (onBehavior f)

/-- The behavior tree of the document edited. -/
def editBehavior (s : Session) (label : String) (f : Value → Except String Value) :
    Bool × Session :=
  if s.lacksBehavior then s.fail s!"{label}: document has no behavior tree"
  else s.edit label (onBehavior f)

/-- The last edit undone. -/
def undo (s : Session) : Bool × Session :=
  match s.document.bind fun d => (s.history.undo? d.current).map (d, ·) with
  | none => s.decline "Nothing to undo"
  | some (d, previous, history) => (true, (s.withCurrent d history previous).say .success "Undo")

/-- The last edit that was undone redone. -/
def redo (s : Session) : Bool × Session :=
  match s.document.bind fun d => (s.history.redo? d.current).map (d, ·) with
  | none => s.decline "Nothing to redo"
  | some (d, next, history) => (true, (s.withCurrent d history next).say .success "Redo")

/-! ## Validating and saving -/

/-- Whether the document differs from the one that was opened or last saved. -/
def isModified (s : Session) : Bool := s.document.any OpenDocument.isModified

/-- Whether a field differs from what was opened or last saved. -/
def isFieldModified (s : Session) (field : String) : Bool :=
  s.document.any (·.isFieldModified field)

/-- The verdict on the document. -/
def validate (s : Session) : Except Unwordable Verdict :=
  match s.document with
  | none => .ok ⟨[⟨[], .nothingOpen⟩]⟩
  | some d => d.validate

/-- What a save hands to its writer, or the end that it comes to before that. -/
def attempt (s : Session) (numeral : Number → String) :
    Except (Except Unwordable (Bool × Session)) (OpenDocument × String) :=
  match s.document with
  | none => .error (.ok (s.fail "Save failed: no document open"))
  | some d =>
    match d.validate with
    | .error e => .error (.error e)
    | .ok v =>
      if v.isValid then
        match Toml.writeWith numeral d.current with
        | .error e => .error (.ok (s.fail s!"Save failed: {e.message}"))
        | .ok text => .ok (d, text)
      else .error (.ok (s.fail s!"Cannot save {d.path}: {v.errorCount} validation error(s)"))

/-- What a save makes of the answer of its writer. -/
def written (s : Session) (d : OpenDocument) : Except String Unit → Bool × Session
  | .error message => s.fail s!"Save failed: {message}"
  | .ok () =>
    (true,
      { s with document := some { d with saved := d.current } }.say .success s!"Saved {d.path}")

/-- The document given to `write` as text, if it is valid. The writer may throw anything, and the
numbers in the text are written by `numeral`. -/
def saveCatching {m : Type → Type} [Monad m] (s : Session) (numeral : Number → String)
    (write : (path text : String) → m (Except Thrown Unit)) :
    m (Except Escape (Bool × Session)) :=
  match s.attempt numeral with
  | .error result => pure (result.mapError .verdict)
  | .ok (d, text) => do
    let answer ← write d.path text
    pure ((caught answer).map (s.written d))

/-- The document given to `write` as text, if it is valid. The writer may fail with a message. -/
def save {m : Type → Type} [Monad m] (s : Session)
    (write : (path text : String) → m (Except String Unit)) :
    m (Except Unwordable (Bool × Session)) :=
  match s.attempt Toml.numberText with
  | .error result => pure result
  | .ok (d, text) => do
    let answer ← write d.path text
    pure (.ok (s.written d answer))

/-! ## Functions that throw errors only -/

theorem caught_mapError_error {α : Type} (x : Except String α) :
    caught (x.mapError .error) = .ok x := by
  cases x <;> rfl

/-- An edit that throws errors only always returns. -/
theorem editCatching_error (s : Session) (label : String)
    (f : Table Value → Except String Value) :
    s.editCatching label (fun t => (f t).mapError .error) = .ok (s.edit label f) := by
  unfold editCatching edit
  cases s.document with
  | none => rfl
  | some d =>
    simp only [caught_mapError_error]
    rfl

theorem onBehavior_error (f : Value → Except String Value) :
    onBehavior (fun v => (f v).mapError .error) =
      fun t => (onBehavior f t).mapError Thrown.error := by
  funext t
  unfold onBehavior
  cases t.get? "behavior" with
  | none => rfl
  | some tree =>
    simp only
    cases f tree <;> rfl

/-- So does an edit of the behavior tree. -/
theorem editBehaviorCatching_error (s : Session) (label : String)
    (f : Value → Except String Value) :
    s.editBehaviorCatching label (fun v => (f v).mapError .error) =
      .ok (s.editBehavior label f) := by
  unfold editBehaviorCatching editBehavior
  split
  · rfl
  · rw [onBehavior_error, editCatching_error]

/-- A save with a writer that throws errors only returns where there is a verdict. -/
theorem saveCatching_error {m : Type → Type} [Monad m] [LawfulMonad m] (s : Session)
    (write : (path text : String) → m (Except String Unit)) :
    s.saveCatching Toml.numberText (fun path text => Except.mapError .error <$> write path text) =
      Except.mapError .verdict <$> s.save write := by
  unfold saveCatching save
  cases s.attempt Toml.numberText with
  | error result => exact (map_pure _ result).symm
  | ok handed =>
    simp only [bind_map_left, map_bind, map_pure, caught_mapError_error]
    rfl

end Session

end Bestiary
