import Bestiary.Tree.Path

/-!
# Edits of trees

Edits of written behavior trees, each addressed by a path. An edit that is addressed to no node, or
that the layout of the node does not allow, changes nothing.

* `Tree.update?` changes the node at a path; every edit is an `editAt` or an `editParent`.
-/

namespace Bestiary.Tree

/-! ## Changing one node -/

/-- The list with another item at a position that is in it. -/
def replaceItem {α : Type} (items : List α) (i : Int) (a : α) : List α := items.set i.toNat a

/-- The node with its child at a position changed. -/
def updateChild? (f : Value → Option Value) (v : Value) (i : Int) : Option Value := do
  let kind ← kindOf? v
  let entries ← v.table?
  match kind.layout.listField with
  | some field =>
    let children ← childList? kind entries
    let child ← f (← itemAt? children i)
    pure (.table (entries.set field (.list (replaceItem children i child))))
  | none =>
    let slot ← itemAt? kind.layout.slots i
    let child ← f (← entries.get? slot.field)
    pure (.table (entries.set slot.field child))

/-- The tree with the node at a path changed; none if there is no such node, or no such change. -/
def update? (f : Table Value → Option (Table Value)) : Path → Value → Option Value
  | [], v => (v.table?.bind f).map .table
  | i :: path, v => updateChild? (update? f path) v i

/-- The tree with the node at a path changed, or as it was. -/
def editAt (root : Value) (path : Path) (f : Table Value → Option (Table Value)) : Value :=
  (update? f path root).getD root

/-- The tree with the parent of the node at a path changed, or as it was. -/
def editParent (root : Value) (path : Path) (f : Int → Table Value → Option (Table Value)) :
    Value :=
  match path.getLast? with
  | none => root
  | some i => editAt root path.dropLast (f i)

/-! ## Lists -/

/-- The two ways to move an item to a neighbour's place. -/
inductive Direction where
  | back
  | forth
  deriving DecidableEq

/-- How many positions a way leads on. -/
def Direction.offset : Direction → Int
  | .back => -1
  | .forth => 1

/-- The list without the item at a position. -/
def removeItem? {α : Type} (items : List α) (i : Int) : Option (List α) :=
  (itemAt? items i).map fun _ => items.eraseIdx i.toNat

/-- The list with an item and the one `offset` positions on swapped. -/
def swapItem? {α : Type} (items : List α) (i offset : Int) : Option (List α) := do
  let a ← itemAt? items i
  let b ← itemAt? items (i + offset)
  pure (replaceItem (replaceItem items i b) (i + offset) a)

/-! ## Edits -/

/-- The written action node that is inserted if nothing else is given. -/
def newAction : Value := .table (emptyAction "New Action")

/-- A child added at the end of a control node, or in the first empty slot of another. -/
def withChild (child : Option Value) (entries : Table Value) : Option (Table Value) := do
  let kind ← kindOf? (.table entries)
  match kind.layout.listField with
  | some field =>
    let children ← match entries.get? field with
      | some v => v.list?
      | none => some []
    pure (entries.set field (.list (children ++ [child.getD newAction])))
  | none =>
    let slot ← kind.layout.slots.find? fun s => !entries.has s.field
    pure (entries.set slot.field (child.getD (.table slot.filler)))

/-- The empty slot of the given number filled. -/
def withSlotFilled (number : Int) (entries : Table Value) : Option (Table Value) := do
  let kind ← kindOf? (.table entries)
  let slot ← itemAt? kind.layout.slots number
  if entries.has slot.field then none
  else pure (entries.set slot.field (.table slot.filler))

/-- The child at a position removed. A slot that has to be filled stays. -/
def withoutChild (i : Int) (entries : Table Value) : Option (Table Value) := do
  let kind ← kindOf? (.table entries)
  match kind.layout.listField with
  | some field =>
    let children ← removeItem? (← childList? kind entries) i
    pure (entries.set field (.list children))
  | none =>
    let slot ← itemAt? kind.layout.slots i
    if slot.required || !entries.has slot.field then none
    else pure (entries.erase slot.field)

/-- The child at a position of a control node swapped with the one `offset` positions on. -/
def withChildMoved (offset i : Int) (entries : Table Value) : Option (Table Value) := do
  let kind ← kindOf? (.table entries)
  let field ← kind.layout.listField
  let children ← swapItem? (← childList? kind entries) i offset
  pure (entries.set field (.list children))

/-- The fields that a new node of a kind starts with. -/
def freshNode (kind : NodeKind) : Table Value :=
  ("type", .text kind.name) :: kind.layout.defaults ++
    (kind.layout.slots.filter Slot.required).map fun s => (s.field, .table s.filler)

/-- The node with another kind. Control nodes keep their children among each other; all else of a
node goes. -/
def retyped (kind : NodeKind) (entries : Table Value) : Option (Table Value) :=
  match (entries.get? "type").bind Data.text? with
  | none => some (freshNode kind)
  | some name =>
    if name = kind.name then none
    else
      match NodeKind.ofName? name, kind with
      | some (.control _), .control _ =>
        let entries := entries.set "type" (.text kind.name)
        match (entries.get? "children").bind Data.list? with
        | some _ => some entries
        | none => some (entries.set "children" (.list []))
      | _, _ => some (freshNode kind)

/-- A child added under the node at a path. -/
def insertChild (root : Value) (path : Path) (child : Option Value) : Value :=
  editAt root path (withChild child)

/-- A slot of the node at a path filled with what its layout puts there. -/
def fillSlot (root : Value) (path : Path) (number : Int) : Value :=
  editAt root path (withSlotFilled number)

/-- The node at a path removed. The root stays. -/
def delete (root : Value) (path : Path) : Value := editParent root path withoutChild

/-- The node at a path swapped with the one `offset` positions on. -/
def move (root : Value) (path : Path) (offset : Int) : Value :=
  editParent root path (withChildMoved offset)

/-- The node at a path with another kind. -/
def retype (root : Value) (path : Path) (kind : NodeKind) : Value := editAt root path (retyped kind)

/-- A field of the node at a path set, unless it is the type. -/
def setField (root : Value) (path : Path) (field : String) (v : Value) : Value :=
  if field = "type" then root else editAt root path fun entries => some (entries.set field v)

/-- The entries without one that is there. -/
def dropKey? (key : String) (entries : Table Value) : Option (Table Value) :=
  if entries.has key then some (entries.erase key) else none

/-- A field of the node at a path removed, unless it is the type. -/
def removeField (root : Value) (path : Path) (field : String) : Value :=
  if field = "type" then root else editAt root path (dropKey? field)

/-- The tree that a new behavior starts with. -/
def starter : Value :=
  .table [("type", .text "Forever"),
    ("children", .list [.table [("type", .text "Action"), ("name", .text "Movement"),
      ("behaviors", .list [.table [("action", .text "MoveDown")]])]])]

end Bestiary.Tree
