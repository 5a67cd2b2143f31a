import Bestiary.Behavior.Command
import Bestiary.Behavior.Layout
import Bestiary.Data.Narrow

/-!
# Behavior trees

A behavior tree is read leniently: a node that cannot be read becomes an unknown node, which keeps
what was written in its place, and everything around it is read as usual.

* `Node.read` reads a tree; it never fails. `Node.toData` writes one.
* `Node.narrow` turns a tree read from loose data into one over values, `Node.toValue` writes that;
  `Node.loosen` goes the other way.
* `readSlot_eq` and `readChildren_eq` say that children are looked up, then read.
-/

namespace Bestiary

/-- A node of a behavior tree, written in data with `ε` outside the value model. -/
inductive Node (ε : Type) where
  | control (kind : ControlKind) (children : List (Node ε))
  | whileLoop (condition : Option (Node ε)) (child : Node ε)
  | ifThen (condition thenChild : Node ε) (elseChild : Option (Node ε))
  | wait (seconds : Number)
  | action (name : String) (commands : List Command)
  | trigger (event : String)
  | unknown (declared : Option String) (raw : Data ε) (reason : Unreadable)

namespace Node

open Record

variable {ε : Type}

instance : Inhabited (Node ε) := ⟨.wait .zero⟩

/-! ## Reading -/

/-- The node that `read` gave, or an unknown node. -/
def orUnknown (kind : NodeKind) (entries : Table (Data ε)) :
    Except Unreadable (Node ε) → Node ε
  | .ok n => n
  | .error reason => .unknown (some kind.name) (.table entries) reason

/-- The kind that a table declares itself to be, or the unknown node it is. -/
def declaredKind (entries : Table (Data ε)) : Except (Node ε) NodeKind :=
  match (entries.get? "type").bind Data.text? with
  | none => .error (.unknown none (.table entries) (.missingField "type"))
  | some name =>
    match NodeKind.ofName? name with
    | none => .error (.unknown (some name) (.table entries) (.unknownType name))
    | some kind => .ok kind

variable [HasKind ε]

/-- The check of a control node's own fields: a list of children and nothing else. -/
def checkControl (entries : Table (Data ε)) : Except Issue Unit := do
  let _ ← required entries "children" asList
  closed ["type", "children"] entries

/-- A leaf from its table. -/
def readLeaf (kind : NodeKind) (entries : Table (Data ε)) : Except Issue (Node ε) :=
  match kind with
  | .wait => do
    let seconds ← required entries "seconds" asNumber
    closed ["type", "seconds"] entries
    pure (.wait seconds)
  | .action => do
    let name ← required entries "name" asText
    let commands ← required entries "behaviors" Command.readList
    closed ["type", "name", "behaviors"] entries
    pure (.action name commands)
  | _ => do
    let event ← required entries "trigger_type" asText
    closed ["type", "trigger_type"] entries
    pure (.trigger event)

/-- A node of a known kind from its table, its children already read. -/
def assemble (kind : NodeKind) (entries : Table (Data ε)) (children : List (Node ε))
    (slot : String → Option (Node ε)) : Except Unreadable (Node ε) :=
  match kind with
  | .control c =>
    match checkControl entries with
    | .ok () => .ok (.control c children)
    | .error issue => .error (.field issue)
  | .whileLoop =>
    match slot "child" with
    | none => .error (.missingField "child")
    | some child =>
      match closed ["type", "condition", "child"] entries with
      | .ok () => .ok (.whileLoop (slot "condition") child)
      | .error issue => .error (.field issue)
  | .ifThen =>
    match slot "condition", slot "then_child" with
    | none, _ => .error (.missingField "condition")
    | _, none => .error (.missingField "then_child")
    | some condition, some thenChild =>
      match closed ["type", "condition", "then_child", "else_child"] entries with
      | .ok () => .ok (.ifThen condition thenChild (slot "else_child"))
      | .error issue => .error (.field issue)
  | leaf => (readLeaf leaf entries).mapError .field

mutual

/-- A node from its written form. -/
def read : Data ε → Node ε
  | .table entries =>
    match declaredKind entries with
    | .error found => found
    | .ok kind =>
      orUnknown kind entries <|
        assemble kind entries (readChildren "children" entries) fun key => readSlot key entries
  | d => .unknown none d (.noTable "node")

/-- The node in the slot `key`. -/
def readSlot (key : String) : List (String × Data ε) → Option (Node ε)
  | [] => none
  | (k, d) :: rest => if k = key then some (read d) else readSlot key rest

/-- The nodes in the list under `key`; none if there is no list. -/
def readChildren (key : String) : List (String × Data ε) → List (Node ε)
  | [] => []
  | (k, d) :: rest => if k = key then readListed d else readChildren key rest

/-- The nodes in a list; none in anything else. -/
def readListed : Data ε → List (Node ε)
  | .list items => readAll items
  | _ => []

/-- A node for each item. -/
def readAll : List (Data ε) → List (Node ε)
  | [] => []
  | d :: items => read d :: readAll items

end

theorem readSlot_eq (key : String) (entries : List (String × Data ε)) :
    readSlot key entries = (Table.get? entries key).map read := by
  induction entries with
  | nil => rfl
  | cons e rest ih =>
    obtain ⟨k, d⟩ := e
    simp only [readSlot, Table.get?]
    split <;> simp [ih]

theorem readAll_eq (items : List (Data ε)) : readAll items = items.map read := by
  induction items with
  | nil => rfl
  | cons d items ih => simp [readAll, ih]

theorem readChildren_eq (key : String) (entries : List (String × Data ε)) :
    readChildren key entries =
      (((Table.get? entries key).bind Data.list?).getD []).map read := by
  induction entries with
  | nil => rfl
  | cons e rest ih =>
    obtain ⟨k, d⟩ := e
    simp only [readChildren, Table.get?]
    split
    · cases d <;> simp [readListed, Data.list?, readAll_eq]
    · exact ih

/-! ## Writing -/

mutual

/-- The written form of a node. An unknown node is written as it was read. -/
def toData {ε : Type} : Node ε → Data ε
  | .control kind children =>
    .table [("type", .text kind.name), ("children", .list (allToData children))]
  | .whileLoop none child => .table [("type", .text "While"), ("child", toData child)]
  | .whileLoop (some condition) child =>
    .table [("type", .text "While"), ("condition", toData condition), ("child", toData child)]
  | .ifThen condition thenChild none =>
    .table [("type", .text "IfThen"), ("condition", toData condition),
      ("then_child", toData thenChild)]
  | .ifThen condition thenChild (some elseChild) =>
    .table [("type", .text "IfThen"), ("condition", toData condition),
      ("then_child", toData thenChild), ("else_child", toData elseChild)]
  | .wait seconds => .table [("type", .text "Wait"), ("seconds", .number seconds)]
  | .action name commands =>
    .table [("type", .text "Action"), ("name", .text name),
      ("behaviors", .list (Command.listToData commands))]
  | .trigger event => .table [("type", .text "Trigger"), ("trigger_type", .text event)]
  | .unknown _ raw _ => raw

/-- The written form of each node. -/
def allToData {ε : Type} : List (Node ε) → List (Data ε)
  | [] => []
  | n :: nodes => toData n :: allToData nodes

end

/-! ## Narrowing -/

mutual

/-- The same tree over values, or the first thing in an unknown node that is no value. Places are
counted from the unknown node. -/
def narrow : Node Foreign → Except NarrowError (Node Empty)
  | .control kind children => .control kind <$> narrowAll children
  | .whileLoop none child => .whileLoop none <$> narrow child
  | .whileLoop (some condition) child => do
    let condition ← narrow condition
    let child ← narrow child
    pure (.whileLoop (some condition) child)
  | .ifThen condition thenChild none => do
    let condition ← narrow condition
    let thenChild ← narrow thenChild
    pure (.ifThen condition thenChild none)
  | .ifThen condition thenChild (some elseChild) => do
    let condition ← narrow condition
    let thenChild ← narrow thenChild
    let elseChild ← narrow elseChild
    pure (.ifThen condition thenChild (some elseChild))
  | .wait seconds => .ok (.wait seconds)
  | .action name commands => .ok (.action name commands)
  | .trigger event => .ok (.trigger event)
  | .unknown declared raw reason => do
    let raw ← Loose.narrow raw
    pure (.unknown declared raw reason)

/-- Every tree over values. -/
def narrowAll : List (Node Foreign) → Except NarrowError (List (Node Empty))
  | [] => .ok []
  | n :: nodes => do
    let n ← narrow n
    let rest ← narrowAll nodes
    pure (n :: rest)

end

mutual

/-- A tree over values as a tree over loose data. -/
def loosen : Node Empty → Node Foreign
  | .control kind children => .control kind (loosenAll children)
  | .whileLoop none child => .whileLoop none (loosen child)
  | .whileLoop (some condition) child => .whileLoop (some (loosen condition)) (loosen child)
  | .ifThen condition thenChild none => .ifThen (loosen condition) (loosen thenChild) none
  | .ifThen condition thenChild (some elseChild) =>
    .ifThen (loosen condition) (loosen thenChild) (some (loosen elseChild))
  | .wait seconds => .wait seconds
  | .action name commands => .action name commands
  | .trigger event => .trigger event
  | .unknown declared raw reason => .unknown declared (Value.loosen raw) reason

/-- `loosen` on every tree. -/
def loosenAll : List (Node Empty) → List (Node Foreign)
  | [] => []
  | n :: nodes => loosen n :: loosenAll nodes

end

/-- The value that a tree is written as, or the first thing in an unknown node that is no value. -/
def toValue (n : Node Foreign) : Except NarrowError Value := toData <$> narrow n

end Node

/-- A behavior tree over values. -/
abbrev Behavior := Node Empty

end Bestiary
