import Bestiary.Behavior.Action
import Bestiary.Json.Writer
import Bestiary.Schema.Record

/-!
# Commands

What an action node tells its mob to do. A command is written as a table with its action and the
parameters of that action, and nothing else.

* `Command.read` reads one, or says why it cannot; `Command.toData` writes it.
-/

namespace Bestiary

/-- A command to a mob. -/
inductive Command where
  | simple (action : SimpleAction)
  | moveTo (x y : Number)
  /-- Without keys, every spawner fires. -/
  | spawn (what : Spawned) (keys : Option (List String))
  | doForTime (seconds : Number)
  | transmit (mobType : String) (commands : List Command)
  | rotateJoints (keys : List String)

/-- Why a node or a command could not be read. -/
inductive Unreadable where
  | noTable (what : String)
  | missingField (key : String)
  | unknownType (name : String)
  | unknownAction (json : String)
  | field (issue : Issue)

/-- The wording of a reason. -/
def Unreadable.text : Unreadable → String
  | .noTable what => s!"{what} must be a table"
  | .missingField key => s!"missing field \"{key}\""
  | .unknownType name => s!"unknown node type \"{name}\""
  | .unknownAction json => s!"unknown action {json}"
  | .field issue =>
    match issue.complaint with
    | .missing => s!"missing field \"{issue.path.dotted}\""
    | _ =>
      if issue.path.dotted = "" then issue.message else s!"{issue.path.dotted}: {issue.message}"

namespace Command

open Record

variable {ε : Type} [HasKind ε]

/-- The kind of a command. -/
def action : Command → Action
  | .simple a => .simple a
  | .moveTo .. => .moveTo
  | .spawn what _ => .spawn what
  | .doForTime _ => .doForTime
  | .transmit .. => .transmit
  | .rotateJoints _ => .rotateJoints

/-! ## Writing -/

/-- The table with the action first, then its parameters. -/
def tableOf (a : Action) (params : List (String × Data ε)) : Data ε :=
  .table (("action", .text a.name) :: params)

mutual

/-- The written form of a command. -/
def toData : Command → Data ε
  | .simple a => tableOf (.simple a) []
  | .moveTo x y => tableOf .moveTo [("x", .number x), ("y", .number y)]
  | .spawn what none => tableOf (.spawn what) []
  | .spawn what (some keys) => tableOf (.spawn what) [("keys", .texts keys)]
  | .doForTime seconds => tableOf .doForTime [("seconds", .number seconds)]
  | .transmit mobType commands =>
    tableOf .transmit [("mob_type", .text mobType), ("behaviors", .list (listToData commands))]
  | .rotateJoints keys => tableOf .rotateJoints [("keys", .texts keys)]

/-- The written form of each command. -/
def listToData : List Command → List (Data ε)
  | [] => []
  | c :: commands => toData c :: listToData commands

end

/-! ## Reading -/

/-- The command of an action from its table; `nested` is what its nested commands are read as. -/
def readParams (entries : Table (Data ε)) (nested : Except Issue (List Command)) :
    Action → Except Issue Command
  | .simple s => do
    closed ["action"] entries
    pure (.simple s)
  | .moveTo => do
    let x ← required entries "x" asNumber
    let y ← required entries "y" asNumber
    closed ["action", "x", "y"] entries
    pure (.moveTo x y)
  | .spawn what => do
    let keys ← optional entries "keys" (readItems asText)
    closed ["action", "keys"] entries
    pure (.spawn what keys)
  | .doForTime => do
    let seconds ← required entries "seconds" asNumber
    closed ["action", "seconds"] entries
    pure (.doForTime seconds)
  | .transmit => do
    let mobType ← required entries "mob_type" asText
    let commands ← nested
    closed ["action", "mob_type", "behaviors"] entries
    pure (.transmit mobType commands)
  | .rotateJoints => do
    let keys ← required entries "keys" (readItems asText)
    closed ["action", "keys"] entries
    pure (.rotateJoints keys)

/-- The action that a command table names, or why there is none. -/
def readAction (entries : Table (Data ε)) : Except Unreadable Action :=
  match entries.get? "action" with
  | none => .error (.missingField "action")
  | some d =>
    match d.text?.bind Action.ofName? with
    | some a => .ok a
    | none => .error (.unknownAction (Json.compact d))

/-- A nested reason as an issue. -/
def asIssue (reason : Unreadable) : Issue := .here (.other reason.text)

mutual

/-- A command from its written form. -/
def read : Data ε → Except Unreadable Command
  | .table entries =>
    match readAction entries with
    | .error reason => .error reason
    | .ok a => (readParams entries (readNested entries) a).mapError .field
  | _ => .error (.noTable "command")

/-- The commands under `behaviors`. -/
def readNested : List (String × Data ε) → Except Issue (List Command)
  | [] => .error ⟨[.key "behaviors"], .missing⟩
  | (k, d) :: rest =>
    if k = "behaviors" then under (.key "behaviors") (readList d) else readNested rest

/-- A list of commands. -/
def readList : Data ε → Except Issue (List Command)
  | .list items => readFrom 0 items
  | d => .error (wrongKind "array" d)

/-- The commands from position `i` on. -/
def readFrom (i : Nat) : List (Data ε) → Except Issue (List Command)
  | [] => .ok []
  | d :: items => do
    let c ← under (.index i) ((read d).mapError asIssue)
    let rest ← readFrom (i + 1) items
    pure (c :: rest)

end

end Command

end Bestiary
