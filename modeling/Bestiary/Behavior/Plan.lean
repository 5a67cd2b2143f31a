import Bestiary.Behavior.Action
import Bestiary.Number.Decimal

/-!
# Plans

What the game runs: a tree of plan nodes, with the orders that a mob gets at its leaves. A plan is
printed as an outline, one node a line, two spaces a level.

* `Order.text` and `Plan.outline` print; `Plan.linesAt` gives the outline's lines.
-/

namespace Bestiary

/-- A point of the arena. -/
structure Point where
  x : Number
  y : Number

/-- A command as the game carries it out. -/
inductive Order where
  | simple (action : SimpleAction)
  | moveTo (target : Point)
  /-- Without keys, every spawner fires. -/
  | spawn (what : Spawned) (keys : Option (List String))
  | doForTime (seconds : Number)
  | transmit (mobType : String) (orders : List Order)
  | rotateJoints (keys : List String)

/-- A node of a plan. -/
inductive PlanNode where
  | forever
  | sequence
  | fallback
  | whileLoop
  | wait (seconds : Number)
  | spawnNamed (name : String) (orders : List Order)

/-- A plan: a node and the plans below it. -/
inductive Plan where
  | node (head : PlanNode) (children : List Plan)

namespace Order

mutual

/-- The text of an order. -/
def text : Order → String
  | .simple a => a.name
  | .moveTo p => s!"MoveTo({p.x.text}, {p.y.text})"
  | .spawn what keys =>
    what.name ++ "(" ++ (match keys with
      | none => "*"
      | some keys => ", ".intercalate keys) ++ ")"
  | .doForTime seconds => s!"DoForTime({seconds.text}s)"
  | .transmit mobType orders =>
    s!"TransmitMobBehavior({mobType}: [" ++ ", ".intercalate (texts orders) ++ "])"
  | .rotateJoints keys => "RotateJointsClockwise(" ++ ", ".intercalate keys ++ ")"

/-- The text of each order. -/
def texts : List Order → List String
  | [] => []
  | o :: orders => text o :: texts orders

end

end Order

/-- The name of the kind of a plan node. -/
def PlanNode.kindName : PlanNode → String
  | .forever => "Forever"
  | .sequence => "Sequence"
  | .fallback => "Fallback"
  | .whileLoop => "While"
  | .wait _ => "Wait"
  | .spawnNamed .. => "SpawnNamed"

/-- The text of a plan node. -/
def PlanNode.text : PlanNode → String
  | .wait seconds => s!"Wait {seconds.text}s"
  | .spawnNamed name orders =>
    s!"SpawnNamed \"{name}\" [" ++ ", ".intercalate (Order.texts orders) ++ "]"
  | n => n.kindName

namespace Plan

/-- The node on top. -/
def head : Plan → PlanNode
  | .node head _ => head

/-- The plans below. -/
def children : Plan → List Plan
  | .node _ children => children

/-- The indentation of a level. -/
def indent (depth : Nat) : String := String.ofList (List.replicate (2 * depth) ' ')

mutual

/-- The outline of a plan that stands at the given depth, line by line. -/
def linesAt (depth : Nat) : Plan → List String
  | .node head children => (indent depth ++ head.text) :: linesOfAll (depth + 1) children

/-- The outlines of several plans, one after the other. -/
def linesOfAll (depth : Nat) : List Plan → List String
  | [] => []
  | p :: plans => linesAt depth p ++ linesOfAll depth plans

end

/-- The outline of a plan. -/
def outline (p : Plan) : String := "\n".intercalate (linesAt 0 p)

end Plan

end Bestiary
