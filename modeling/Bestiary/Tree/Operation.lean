import Bestiary.Tree.CommandEdit

/-!
# Operations on trees

The edits of trees and of commands as data, so that they can be read, listed and applied.

* `TreeEdit.apply` carries an edit out.
* `TreeEdit.label` names it in a log.
-/

namespace Bestiary

open Bestiary.Tree

/-- An edit of a tree, with values of type `α` in it. -/
inductive TreeEdit (α : Type) where
  | insertChild (path : Path) (child : Option α)
  | fillSlot (path : Path) (slot : Int)
  | delete (path : Path)
  | move (path : Path) (direction : Direction)
  | retype (path : Path) (kind : NodeKind)
  | setField (path : Path) (field : String) (value : α)
  | removeField (path : Path) (field : String)
  | insertCommand (path positions : Path) (command : Option α)
  | deleteCommand (path command : Path)
  | moveCommand (path command : Path) (direction : Direction)
  | retypeCommand (path command : Path) (action : Action)
  | setParam (path command : Path) (param : String) (value : α)
  | removeParam (path command : Path) (param : String)

namespace TreeEdit

/-- The tree after an edit. -/
def apply (e : TreeEdit Value) (root : Value) : Value :=
  match e with
  | .insertChild path child => Tree.insertChild root path child
  | .fillSlot path slot => Tree.fillSlot root path slot
  | .delete path => Tree.delete root path
  | .move path direction => Tree.move root path direction.offset
  | .retype path kind => Tree.retype root path kind
  | .setField path field value => Tree.setField root path field value
  | .removeField path field => Tree.removeField root path field
  | .insertCommand path positions command => Tree.insertCommand root path positions command
  | .deleteCommand path command => Tree.deleteCommand root path command
  | .moveCommand path command direction =>
    Tree.moveCommand root path command direction.offset
  | .retypeCommand path command action => Tree.retypeCommand root path command action
  | .setParam path command param value => Tree.setParam root path command param value
  | .removeParam path command param => Tree.removeParam root path command param

/-- The name of an edit in a log. -/
def label {α : Type} : TreeEdit α → String
  | .insertChild .. => "Insert child"
  | .fillSlot .. => "Fill slot"
  | .delete .. => "Delete node"
  | .move .. => "Move node"
  | .retype _ kind => s!"Change type to {kind.name}"
  | .setField _ field _ => s!"Set {field}"
  | .removeField _ field => s!"Remove {field}"
  | .insertCommand .. => "Insert command"
  | .deleteCommand .. => "Delete command"
  | .moveCommand .. => "Move command"
  | .retypeCommand _ _ action => s!"Change action to {action.name}"
  | .setParam _ _ param _ => s!"Set {param}"
  | .removeParam _ _ param => s!"Remove {param}"

end TreeEdit

end Bestiary
