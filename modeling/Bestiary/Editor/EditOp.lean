import Bestiary.Editor.Session
import Bestiary.Json.Reader
import Bestiary.Toml.Document
import Bestiary.Tree.Operation

/-!
# Scripted edits

Edits of a session as JSON: one operation or a list of them. Operations are read strictly, all
before the first is applied. The values in them are only narrowed when they are applied, so that a
value that is none makes its own edit fail and no other.

* `EditOp.readAll` reads the operations of a text.
* `Session.apply` applies one.
-/

namespace Bestiary

open Bestiary.Tree

/-- An operation of a session. -/
inductive EditOp where
  | edit (e : TreeEdit Loose)
  | undo
  | redo

/-- Why the operations of a text could not be read. -/
inductive EditOpsError where
  | notJson
  | malformed (issue : Issue)

/-- The wording of a refusal. -/
def EditOpsError.message : EditOpsError → String
  | .notJson => "Invalid --ops: not valid JSON"
  | .malformed issue =>
    if issue.path.isEmpty then s!"Invalid --ops: {issue.message}"
    else s!"Invalid --ops: {issue.path.dotted}: {issue.message}"

namespace EditOp

open Record

/-! ## Parts -/

/-- A position: a whole number from zero up. -/
def readIndex (d : Loose) : Except Issue Int :=
  match d with
  | .number n =>
    match n.toInt? with
    | none => .error (.here (.wrongKind "integer" "float"))
    | some i => if i < 0 then .error (.here (.belowLeast 0)) else .ok i
  | .alien (.infinite _) => .error (.here (.wrongKind "integer" "float"))
  | _ => .error (wrongKind "number" d)

/-- A path. -/
def readPath (d : Loose) : Except Issue Path := readItems readIndex d

/-- A path with at least one position. -/
def readCommandPath (d : Loose) : Except Issue Path := do
  let path ← readPath d
  if path.isEmpty then .error (.here (.tooFewItems 1)) else pure path

/-- A text that is not empty. -/
def readName (d : Loose) : Except Issue String := do
  let name ← asText d
  if name = "" then .error (.here (.tooShort 1)) else pure name

/-- One of the listed things, by its name. -/
def readListed {α : Type} (all : List α) (nameOf : α → String) (d : Loose) : Except Issue α :=
  match d with
  | .text s =>
    match all.find? fun a => nameOf a = s with
    | some a => .ok a
    | none => .error (.here (.notListed (all.map nameOf) s))
  | _ => .error (wrongKind (optionsText (all.map nameOf)) d)

/-- The direction of a move: -1 or 1. Whatever is wrong with it is said in the same words. -/
def readDirection (entries : Table Loose) : Except Issue Direction :=
  match (entries.get? "direction").bind Data.number? |>.bind Number.toInt? with
  | some (-1) => .ok .back
  | some 1 => .ok .forth
  | _ => .error ⟨[.key "direction"], .noAlternative⟩

/-- A path that is the root if it is absent. -/
def pathField (entries : Table Loose) (key : String) : Except Issue Path :=
  (·.getD []) <$> optional entries key readPath

/-- The path of a command. -/
def commandField (entries : Table Loose) : Except Issue Path :=
  required entries "command_path" readCommandPath

/-- A datum of any kind, or nothing. -/
def anyField (entries : Table Loose) (key : String) : Loose :=
  (entries.get? key).getD (.alien .absent)

/-! ## Operations -/

/-- The names of the operations. -/
def names : List String :=
  ["insert_child", "fill_slot", "delete", "move", "retype", "set_field", "remove_field",
    "insert_command", "delete_command", "move_command", "retype_command", "set_param",
    "remove_param", "undo", "redo"]

/-- The edit of a node that a table describes by its name, its path already read. -/
def readNodeEdit (entries : Table Loose) (path : Path) :
    (name : String) → Option (Except Issue (TreeEdit Loose))
  | "insert_child" => some do
    closed ["op", "path", "child"] entries
    pure (.insertChild path (entries.get? "child"))
  | "fill_slot" => some do
    let slot ← required entries "slot" readIndex
    closed ["op", "path", "slot"] entries
    pure (.fillSlot path slot)
  | "delete" => some do
    closed ["op", "path"] entries
    pure (.delete path)
  | "move" => some do
    let direction ← readDirection entries
    closed ["op", "path", "direction"] entries
    pure (.move path direction)
  | "retype" => some do
    let kind ← required entries "type" (readListed NodeKind.all NodeKind.name)
    closed ["op", "path", "type"] entries
    pure (.retype path kind)
  | "set_field" => some do
    let field ← required entries "field" readName
    closed ["op", "path", "field", "value"] entries
    pure (.setField path field (anyField entries "value"))
  | "remove_field" => some do
    let field ← required entries "field" readName
    closed ["op", "path", "field"] entries
    pure (.removeField path field)
  | _ => none

/-- The edit of a command that a table describes by its name, its path already read. -/
def readCommandEdit (entries : Table Loose) (path : Path) :
    (name : String) → Option (Except Issue (TreeEdit Loose))
  | "insert_command" => some do
    let positions ← pathField entries "list_path"
    closed ["op", "path", "list_path", "command"] entries
    pure (.insertCommand path positions (entries.get? "command"))
  | "delete_command" => some do
    let command ← commandField entries
    closed ["op", "path", "command_path"] entries
    pure (.deleteCommand path command)
  | "move_command" => some do
    let command ← commandField entries
    let direction ← readDirection entries
    closed ["op", "path", "command_path", "direction"] entries
    pure (.moveCommand path command direction)
  | "retype_command" => some do
    let command ← commandField entries
    let action ← required entries "action" (readListed Action.all Action.name)
    closed ["op", "path", "command_path", "action"] entries
    pure (.retypeCommand path command action)
  | "set_param" => some do
    let command ← commandField entries
    let param ← required entries "param" readName
    closed ["op", "path", "command_path", "param", "value"] entries
    pure (.setParam path command param (anyField entries "value"))
  | "remove_param" => some do
    let command ← commandField entries
    let param ← required entries "param" readName
    closed ["op", "path", "command_path", "param"] entries
    pure (.removeParam path command param)
  | _ => none

/-- An operation that changes no tree by itself. -/
def readStep (entries : Table Loose) : (name : String) → Option (Except Issue EditOp)
  | "undo" => some do
    closed ["op"] entries
    pure .undo
  | "redo" => some do
    closed ["op"] entries
    pure .redo
  | _ => none

/-- The operation of a name that a table describes, if there is such a name. -/
def readNamed? (entries : Table Loose) (name : String) : Option (Except Issue EditOp) :=
  let edit (read : Path → Option (Except Issue (TreeEdit Loose))) : Option (Except Issue EditOp) :=
    match pathField entries "path" with
    | .ok path => (read path).map fun e => .edit <$> e
    | .error issue => (read []).map fun _ => .error issue
  edit (readNodeEdit entries · name) <|> edit (readCommandEdit entries · name) <|>
    readStep entries name

/-- An operation. -/
def read (d : Loose) : Except Issue EditOp := do
  let entries ← asTable d
  match ((entries.get? "op").bind Data.text?).bind (readNamed? entries) with
  | some op => op
  | none => .error ⟨[.key "op"], .unlistedTag names⟩

/-- The operations of a text: a list of them, or a single one. -/
def readAll (text : String) : Except EditOpsError (List EditOp) :=
  match Json.read text with
  | none => .error .notJson
  | some d =>
    let items := match d with
      | .list items => items
      | _ => [d]
    (readItems read (.list items)).mapError .malformed

end EditOp

/-! ## Applying -/

namespace TreeEdit

/-- A value in an edit, or the message about what is none; `role` says what it is the value of. -/
def narrowValue (role : String) (d : Loose) : Except String Value :=
  (Loose.toValue d (some role)).mapError ParseError.message

/-- A value in an edit that may be absent. -/
def narrowOptional (role : String) (d : Option Loose) : Except String (Option Value) :=
  match d with
  | none => .ok none
  | some d => some <$> narrowValue role d

/-- A command in an edit. -/
def narrowCommand (d : Option Loose) : Except String (Option Value) := do
  match ← narrowOptional "command" d with
  | none => pure none
  | some v => if v.isTable then pure (some v) else .error "command must be a table"

/-- The edit with values in it, or the message about something in it that is none. -/
def narrow : TreeEdit Loose → Except String (TreeEdit Value)
  | .insertChild path child => .insertChild path <$> narrowOptional "child" child
  | .fillSlot path slot => .ok (.fillSlot path slot)
  | .delete path => .ok (.delete path)
  | .move path direction => .ok (.move path direction)
  | .retype path kind => .ok (.retype path kind)
  | .setField path field d => .setField path field <$> narrowValue field d
  | .removeField path field => .ok (.removeField path field)
  | .insertCommand path positions d => .insertCommand path positions <$> narrowCommand d
  | .deleteCommand path command => .ok (.deleteCommand path command)
  | .moveCommand path command direction => .ok (.moveCommand path command direction)
  | .retypeCommand path command action => .ok (.retypeCommand path command action)
  | .setParam path command param d => .setParam path command param <$> narrowValue param d
  | .removeParam path command param => .ok (.removeParam path command param)

end TreeEdit

/-- A session after an operation, and whether the operation changed the document. -/
def Session.apply (s : Session) (op : EditOp) : Bool × Session :=
  match op with
  | .edit e => s.editBehavior e.label fun root => (e.narrow).map (·.apply root)
  | .undo => s.undo
  | .redo => s.redo

end Bestiary
