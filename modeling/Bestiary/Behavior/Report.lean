import Bestiary.Behavior.Compile

/-!
# Compiled trees as data

Plans, orders and diagnostics as tables, the form in which tools exchange them. What is absent is
written null.
-/

namespace Bestiary

/-- An absent datum is null. -/
def orNull {α : Type} (write : α → Loose) : Option α → Loose
  | some a => write a
  | none => .alien .null

mutual

/-- An order as a table. -/
def Order.toData : Order → Loose
  | .simple a => .table [("type", .text a.name)]
  | .moveTo p =>
    .table [("type", .text "MoveTo"),
      ("target", .table [("x", .number p.x), ("y", .number p.y)])]
  | .spawn what keys => .table [("type", .text what.name), ("keys", orNull Data.texts keys)]
  | .doForTime seconds => .table [("type", .text "DoForTime"), ("seconds", .number seconds)]
  | .transmit mobType orders =>
    .table [("type", .text "TransmitMobBehavior"), ("mobType", .text mobType),
      ("behaviors", .list (Order.listToData orders))]
  | .rotateJoints keys =>
    .table [("type", .text "RotateJointsClockwise"), ("keys", .texts keys)]

/-- Each order as a table. -/
def Order.listToData : List Order → List Loose
  | [] => []
  | o :: orders => Order.toData o :: Order.listToData orders

end

/-- A plan node as a table. -/
def PlanNode.toData (n : PlanNode) : Loose :=
  let kind := ("kind", .text n.kindName)
  match n with
  | .wait seconds => .table [kind, ("seconds", .number seconds)]
  | .spawnNamed name orders =>
    .table [kind, ("name", .text name), ("behaviors", .list (Order.listToData orders))]
  | _ => .table [kind]

mutual

/-- A plan as a table. -/
def Plan.toData : Plan → Loose
  | .node head children =>
    .table [("node", head.toData), ("children", .list (Plan.listToData children))]

/-- Each plan as a table. -/
def Plan.listToData : List Plan → List Loose
  | [] => []
  | p :: plans => Plan.toData p :: Plan.listToData plans

end

/-- A diagnostic as a table. -/
def Diagnostic.toData (d : Diagnostic) : Loose :=
  .table [("code", .text d.finding.code), ("path", .list (d.path.map Data.natural)),
    ("message", .text d.message)]

end Bestiary
