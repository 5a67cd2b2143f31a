import Bestiary.Behavior.Action
import Bestiary.Data.Basic

/-!
# Layouts

The shape of each kind of node and of each command, said once: reader, validator and editor all go
by it. A control node has a list of children. A `While` and an `IfThen` have slots for single
nodes, numbered from zero. The others are leaves.

* `NodeKind.layout` gives the children, the slots and the fields that a new node starts with.
* `Action.defaults` and `Action.nestedList?` do the same for commands.
-/

namespace Bestiary

/-- The control nodes. -/
inductive ControlKind where
  | forever
  | sequence
  | fallback
  deriving DecidableEq

/-- The kinds of nodes. -/
inductive NodeKind where
  | control (kind : ControlKind)
  | whileLoop
  | ifThen
  | wait
  | action
  | trigger
  deriving DecidableEq

/-- The name of a control node. -/
def ControlKind.name : ControlKind → String
  | .forever => "Forever"
  | .sequence => "Sequence"
  | .fallback => "Fallback"

/-- How a kind of node holds its children. -/
inductive Category where
  | control
  | binary
  | leaf
  deriving DecidableEq

/-- The name of a category. -/
def Category.name : Category → String
  | .control => "control"
  | .binary => "binary"
  | .leaf => "leaf"

/-- A place for a single child. -/
structure Slot where
  field : String
  required : Bool
  /-- The node that is put there when the slot is filled. -/
  filler : Table Value

/-- The shape of a kind of node. -/
structure Layout where
  category : Category
  /-- The field that holds the list of children. -/
  listField : Option String
  slots : List Slot
  /-- The fields, children in slots apart, that a new node starts with. -/
  defaults : Table Value

/-- An action node without commands. -/
def emptyAction (name : String) : Table Value :=
  [("type", .text "Action"), ("name", .text name), ("behaviors", .list [])]

/-- A node that waits for one second. -/
def secondOfWaiting : Table Value := [("type", .text "Wait"), ("seconds", .natural 1)]

namespace NodeKind

/-- The name of a kind. -/
def name : NodeKind → String
  | .control kind => kind.name
  | .whileLoop => "While"
  | .ifThen => "IfThen"
  | .wait => "Wait"
  | .action => "Action"
  | .trigger => "Trigger"

/-- Every kind. -/
def all : List NodeKind :=
  [.control .forever, .control .sequence, .control .fallback, .whileLoop, .ifThen, .wait, .action,
    .trigger]

/-- The kind of a name. -/
def ofName? (name : String) : Option NodeKind := all.find? fun k => k.name = name

theorem name_of_ofName? {name : String} {k : NodeKind} (h : ofName? name = some k) :
    k.name = name := by
  simpa using List.find?_some h

@[simp] theorem ofName?_name (k : NodeKind) : ofName? k.name = some k := by
  cases k with
  | control c => cases c <;> decide
  | _ => decide

/-- A layout without slots. -/
def plainLayout (category : Category) (listField : Option String) (defaults : Table Value) :
    Layout :=
  ⟨category, listField, [], defaults⟩

/-- The shape of a kind. -/
def layout : NodeKind → Layout
  | .control _ => plainLayout .control (some "children") [("children", .list [])]
  | .whileLoop =>
    ⟨.binary, none,
      [⟨"condition", false, secondOfWaiting⟩, ⟨"child", true, emptyAction "Child"⟩], []⟩
  | .ifThen =>
    ⟨.binary, none,
      [⟨"condition", true, secondOfWaiting⟩, ⟨"then_child", true, emptyAction "Then"⟩,
        ⟨"else_child", false, emptyAction "Else"⟩], []⟩
  | .wait => plainLayout .leaf none [("seconds", .natural 1)]
  | .action => plainLayout .leaf none [("name", .text "New Action"), ("behaviors", .list [])]
  | .trigger => plainLayout .leaf none [("trigger_type", .text "")]

/-- The number of the slot for a field. -/
def slotIndex? (k : NodeKind) (field : String) : Option Nat :=
  k.layout.slots.findIdx? fun s => s.field = field

end NodeKind

namespace Action

/-- The parameters that a new command starts with. -/
def defaults : Action → Table Value
  | .moveTo => [("x", .natural 0), ("y", .natural 0)]
  | .doForTime => [("seconds", .natural 1)]
  | .transmit => [("mob_type", .text ""), ("behaviors", .list [])]
  | .rotateJoints => [("keys", .list [])]
  | .simple _ => []
  | .spawn _ => []

/-- The field that holds a list of nested commands. -/
def nestedList? : Action → Option String
  | .transmit => some "behaviors"
  | _ => none

end Action

end Bestiary
