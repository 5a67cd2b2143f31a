import Bestiary.Tree.Edit

/-!
# Edits of commands

Edits of the commands of an action node. A command is addressed by the path of the node and by
positions: the first in the commands of the node, each other in the nested commands of the command
before it.

* `Tree.updateList?` changes the list of commands that positions lead to; every edit is one of it.
* `Tree.commandAt?` finds a command.
-/

namespace Bestiary.Tree

/-- The key of the commands of an action node. -/
def commandsKey : String := "behaviors"

/-- The key of the nested commands of a command that may have some. -/
def nestedKey? (command : Table Value) : Option String :=
  (((command.get? "action").bind Data.text?).bind Action.ofName?).bind Action.nestedList?

/-- Whether entries are those of an action node. -/
def isAction (entries : Table Value) : Bool :=
  (entries.get? "type").bind Data.text? = some NodeKind.action.name

/-! ## Lists of commands -/

/-- The list under a key; an empty one if there is nothing and `create` is set. -/
def listUnder? (create : Bool) (key : String) (entries : Table Value) : Option (List Value) :=
  match entries.get? key with
  | some v => v.list?
  | none => if create then some [] else none

/-- The entries with the list that positions lead to from the one under `key` changed. With
`create`, lists that are missing on the way are added. -/
def updateList? (create : Bool) (f : List Value → Option (List Value)) (key : String) :
    (positions : Path) → Table Value → Option (Table Value)
  | [], entries => do
    let items ← f (← listUnder? create key entries)
    pure (entries.set key (.list items))
  | i :: positions, entries => do
    let items ← listUnder? create key entries
    let command ← (← itemAt? items i).table?
    let command ← updateList? create f (← nestedKey? command) positions command
    pure (entries.set key (.list (replaceItem items i (.table command))))

/-- The list that positions lead to from the one under `key`. -/
def listAt? (key : String) : (positions : Path) → Table Value → Option (List Value)
  | [], entries => listUnder? false key entries
  | i :: positions, entries => do
    let items ← listUnder? false key entries
    let command ← (← itemAt? items i).table?
    listAt? (← nestedKey? command) positions command

/-- The tree with a list of commands of the action node at a path changed, or as it was. -/
def editList (create : Bool) (root : Value) (path positions : Path)
    (f : List Value → Option (List Value)) : Value :=
  editAt root path fun entries =>
    if isAction entries then updateList? create f commandsKey positions entries else none

/-- The tree with the list that holds a command changed, or as it was. -/
def editSiblings (root : Value) (path command : Path)
    (f : Int → List Value → Option (List Value)) : Value :=
  match command.getLast? with
  | none => root
  | some i => editList false root path command.dropLast (f i)

/-- The tree with a command changed, or as it was. -/
def editCommand (root : Value) (path command : Path)
    (f : Table Value → Option (Table Value)) : Value :=
  editSiblings root path command fun i items => do
    let changed ← f (← (← itemAt? items i).table?)
    pure (replaceItem items i (.table changed))

/-! ## Commands -/

/-- The command that positions lead to in the action node at a path. -/
def commandAt? (root : Value) (path command : Path) : Option (Table Value) := do
  let i ← command.getLast?
  let entries ← (← nodeAt? root path).table?
  if isAction entries then
    (← itemAt? (← listAt? commandsKey command.dropLast entries) i).table?
  else none

/-- The command that is inserted if nothing else is given. -/
def newCommand : Value := .table [("action", .text (Action.simple .moveDown).name)]

/-- A command added at the end of the list that positions lead to. -/
def insertCommand (root : Value) (path positions : Path) (command : Option Value) : Value :=
  editList true root path positions fun items => some (items ++ [command.getD newCommand])

/-- A command removed. -/
def deleteCommand (root : Value) (path command : Path) : Value :=
  editSiblings root path command fun i items => removeItem? items i

/-- A command swapped with the one `offset` positions on. -/
def moveCommand (root : Value) (path command : Path) (offset : Int) : Value :=
  editSiblings root path command fun i items => swapItem? items i offset

/-- A command with another action and the parameters that this action starts with. -/
def retypeCommand (root : Value) (path command : Path) (action : Action) : Value :=
  editCommand root path command fun entries =>
    if (entries.get? "action").bind Data.text? = some action.name then none
    else some (("action", .text action.name) :: action.defaults)

/-- A parameter of a command set, unless it is the action. -/
def setParam (root : Value) (path command : Path) (param : String) (v : Value) : Value :=
  if param = "action" then root
  else editCommand root path command fun entries => some (entries.set param v)

/-- A parameter of a command removed, unless it is the action. -/
def removeParam (root : Value) (path command : Path) (param : String) : Value :=
  if param = "action" then root else editCommand root path command (dropKey? param)

end Bestiary.Tree
