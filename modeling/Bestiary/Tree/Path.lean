import Bestiary.Behavior.Layout

/-!
# Places in written trees

A node of a written behavior tree is addressed by positions, from the root down. The children of a
control node are counted from zero; slots have the numbers of the layout, filled or not. A position
that no node stands at, negative ones included, addresses nothing.

* `Tree.nodeAt?` finds the node at a path, `Tree.paths` lists the paths of all nodes.
* `Tree.describe` lists the nodes below a path with their types and names.
-/

namespace Bestiary.Tree

/-- Positions from the root down to a node. -/
abbrev Path := List Int

/-- The kind of a written node, if it is one of the known kinds. -/
def kindOf? (v : Value) : Option NodeKind :=
  ((v.field? "type").bind Data.text?).bind NodeKind.ofName?

/-- The item of a list at a position. -/
def itemAt? {α : Type} (items : List α) (i : Int) : Option α :=
  if i < 0 then none else items[i.toNat]?

/-- The list of children of a control node. -/
def childList? (kind : NodeKind) (entries : Table Value) : Option (List Value) :=
  (kind.layout.listField.bind entries.get?).bind Data.list?

/-- The child of a node at a position. -/
def childAt? (v : Value) (i : Int) : Option Value := do
  let kind ← kindOf? v
  let entries ← v.table?
  match kind.layout.listField with
  | some _ => itemAt? (← childList? kind entries) i
  | none => entries.get? (← itemAt? kind.layout.slots i).field

/-- The node at a path. -/
def nodeAt? : Value → Path → Option Value
  | v, [] => some v
  | v, i :: path => (childAt? v i).bind (nodeAt? · path)

/-- The type that the node at a path says it has. -/
def typeAt? (root : Value) (path : Path) : Option String :=
  (nodeAt? root path).bind fun v => (v.field? "type").bind Data.text?

/-- How many positions for children a node has. -/
def childCount (v : Value) : Nat :=
  match kindOf? v, v.table? with
  | some kind, some entries =>
    match kind.layout.listField with
    | some _ => ((childList? kind entries).getD []).length
    | none => kind.layout.slots.length
  | _, _ => 0

/-- How many positions for children the node at a path has. -/
def childCountAt (root : Value) (path : Path) : Nat := ((nodeAt? root path).map childCount).getD 0

/-- A field of the node at a path. -/
def fieldAt? (root : Value) (path : Path) (field : String) : Option Value :=
  (nodeAt? root path).bind (·.field? field)

/-! ## Listing -/

mutual

/-- The path of every node, a node before what is below it. -/
def paths : Value → List Path
  | .table entries =>
    [] :: match kindOf? (.table entries) with
      | none => []
      | some kind =>
        match kind.layout.listField with
        | some field => pathsUnder field entries
        | none =>
          kind.layout.slots.zipIdx.flatMap fun (s, i) =>
            (pathsIn s.field entries).map (Int.ofNat i :: ·)
  | _ => [[]]

/-- The paths of the nodes in the list under a key. -/
def pathsUnder (key : String) : List (String × Value) → List Path
  | [] => []
  | (k, v) :: rest => if k = key then pathsListed v else pathsUnder key rest

/-- The paths of the nodes in a list. -/
def pathsListed : Value → List Path
  | .list items => pathsFrom 0 items
  | _ => []

/-- The paths of the nodes from position `i` on. -/
def pathsFrom (i : Nat) : List Value → List Path
  | [] => []
  | v :: items => (paths v).map (Int.ofNat i :: ·) ++ pathsFrom (i + 1) items

/-- The paths of the nodes in a slot, from the slot down. -/
def pathsIn (key : String) : List (String × Value) → List Path
  | [] => []
  | (k, v) :: rest => if k = key then paths v else pathsIn key rest

end

/-- A path as it is printed and typed. -/
def pathText (path : Path) : String :=
  if path.isEmpty then "root" else ".".intercalate (path.map Int.repr)

/-- A node in a listing. -/
structure Line where
  path : Path
  type : String
  name : Option String

/-- The line of the node at a path. -/
def lineAt (root : Value) (path : Path) : Line :=
  ⟨path, (typeAt? root path).getD "?", (fieldAt? root path "name").bind Data.text?⟩

/-- A line for each node at and below a path; none if there is no node. -/
def describe (root : Value) (base : Path) : List Line :=
  match nodeAt? root base with
  | none => []
  | some v => (paths v).map fun path => lineAt root (base ++ path)

end Bestiary.Tree
