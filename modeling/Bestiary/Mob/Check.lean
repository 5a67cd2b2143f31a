import Bestiary.Mob.Problem

/-!
# Authoring checks

The checks that an author gets on a document. They are looser than the schema in one way, since a
patch need not be complete, and stricter in another: numbers have ranges, timers run forward, types
of nodes are known. Every problem is listed, in a fixed order.

* `Check.document` lists the remarks on a document; `Check.node` those on a behavior tree.
* `validate` gives the verdict, unless a remark cannot be worded.
-/

namespace Bestiary

namespace Check

/-- A remark on the data at a place. -/
def remark (place : FieldPath) (problem : Problem) : List Remark := [⟨place, problem⟩]

/-- A remark if the condition holds. -/
def remarkIf (c : Prop) [Decidable c] (place : FieldPath) (problem : Problem) : List Remark :=
  if c then remark place problem else []

/-- What a check says of an entry, if it is there. -/
def entry (entries : Table Value) (key : String) (check : FieldPath → Value → List Remark)
    (place : FieldPath) : List Remark :=
  match entries.get? key with
  | some v => check (place ++ [.key key]) v
  | none => []

/-- The check that a record has a field. -/
def present (entries : Table Value) (key : String) (place : FieldPath) : List Remark :=
  match entries.get? key with
  | some _ => []
  | none => remark place (.lacks key)

/-- What a check says of the items from position `i` on. -/
def itemsFrom (check : FieldPath → Value → List Remark) (place : FieldPath) (i : Nat) :
    List Value → List Remark
  | [] => []
  | v :: items => check (place ++ [.index i]) v ++ itemsFrom check place (i + 1) items

/-- What a check says of the items of a list. -/
def items (check : FieldPath → Value → List Remark) (place : FieldPath) (v : Value) :
    List Remark :=
  match v with
  | .list items => itemsFrom check place 0 items
  | _ => remark place .notList

/-! ## Numbers and points -/

/-- A whole number above zero. -/
def positiveInteger (place : FieldPath) (v : Value) : List Remark :=
  match v with
  | .number n =>
    if n.isInteger then remarkIf (n ≤ .zero) place .notPositiveInteger
    else remark place .notInteger
  | _ => remark place .notInteger

/-- A number above zero. -/
def positive (place : FieldPath) (v : Value) : List Remark :=
  match v with
  | .number n => remarkIf (n ≤ .zero) place .notPositive
  | _ => remark place .notNumber

/-- A number between two bounds. -/
def within (least most : Nat) (place : FieldPath) (v : Value) : List Remark :=
  match v with
  | .number n =>
    remarkIf (n < .ofSmall least ∨ .ofSmall most < n) place (.outside least most)
  | _ => remark place .notNumber

/-- A number. -/
def number (place : FieldPath) (v : Value) : List Remark :=
  match v with
  | .number _ => []
  | _ => remark place .notNumber

/-- Two numbers. -/
def point (place : FieldPath) (v : Value) : List Remark :=
  let coordinate (i : Nat) (v : Value) : List Remark :=
    match v with
    | .number _ => []
    | _ => remark place (.elementNotNumber i)
  match v with
  | .list [x, y] => coordinate 0 x ++ coordinate 1 y
  | .list _ => remark place .notTwoNumbers
  | _ => remark place .notPoint

/-! ## Colliders -/

/-- One side of a rectangle. -/
def side (place : FieldPath) (i : Nat) (v : Value) : List Remark :=
  match v with
  | .number n => remarkIf (n ≤ .zero) place (.rectangleNotPositive i)
  | _ => remark place (.rectangleNotNumber i)

/-- The measures of a shape of the given name. -/
def measures (place : FieldPath) (name : String) (v : Value) : List Remark :=
  match name, v with
  | "Rectangle", .list [width, height] => side place 0 width ++ side place 1 height
  | "Rectangle", _ => remark place .rectangleNotTwo
  | "Circle", .number radius => remarkIf (radius ≤ .zero) place .circleNotPositive
  | "Circle", _ => remark place .circleNotNumber
  | "Capsule", .list [_, _] => []
  | "Capsule", _ => remark place .capsuleNotTwo
  | _, _ => remark place (.unknownShape name)

/-- The shape of a collider. -/
def shape (place : FieldPath) (v : Value) : List Remark :=
  match v with
  | .table [(name, v)] => measures place name v
  | .table _ => remark place .shapeNotSingle
  | _ => remark place .shapeNoTable

/-- A collider. -/
def collider (place : FieldPath) (v : Value) : List Remark :=
  match v with
  | .table entries =>
    present entries "shape" place ++
      entry entries "shape" shape place ++ entry entries "position" point place ++
      entry entries "rotation" number place
  | _ => remark place .notTable

/-! ## Spawners, joints, decorations -/

/-- A spawner with the fields that its kind requires. -/
def spawner (needed : List String) (place : FieldPath) (v : Value) : List Remark :=
  match v with
  | .table entries =>
    present entries "timer" place ++
      entry entries "timer" positive place ++
      needed.flatMap fun field => present entries field place
  | _ => remark place .notTable

/-- Spawners under their keys. -/
def spawnerTable (needed : List String) (place : FieldPath) (v : Value) : List Remark :=
  match v with
  | .table entries => entries.flatMap fun (key, v) => spawner needed (place ++ [.key key]) v
  | _ => remark place .notTable

/-- The spawners of one kind. -/
def spawners (needed : List String) (place : FieldPath) (v : Value) : List Remark :=
  match v with
  | .table entries => entry entries "spawners" (spawnerTable needed) place
  | _ => remark place .notTable

/-- A joint. -/
def joint (place : FieldPath) (v : Value) : List Remark :=
  match v with
  | .table entries =>
    present entries "key" place ++
      present entries "mob_ref" place
  | _ => remark place .notTable

/-- A decoration. -/
def decoration (place : FieldPath) (v : Value) : List Remark :=
  match v with
  | .list [sprite, position] =>
    remarkIf (sprite.text? = none) place .spriteNotText ++
      (match position with
        | .list [_, _] => []
        | .list _ => remark place .positionNotTwo
        | _ => remark place .positionNotList)
  | .list _ => remark place .decorationNotTwo
  | _ => remark place .decorationNotList

/-! ## Behavior trees -/

/-- The reason for which a node cannot be read, if it cannot. -/
def unreadable? : Behavior → Option Unreadable
  | .unknown _ _ reason => some reason
  | _ => none

/-- The node with harmless children and commands in place of its own. -/
def withStandIns (kind : NodeKind) (entries : Table Value) : Table Value :=
  let listed := match kind.layout.listField with
    | some field => entries.set field (.list [])
    | none => entries
  let slotted := kind.layout.slots.foldl (fun t s => t.set s.field (.table s.filler)) listed
  if kind = .action then slotted.set "behaviors" (.list []) else slotted

/-- The fields of a node that are neither children nor commands. -/
def ownFields (place : FieldPath) (kind : NodeKind) (entries : Table Value) : List Remark :=
  match unreadable? (Node.read (.table (withStandIns kind entries))) with
  | some reason => remark place (.invalidNode kind reason)
  | none => []

/-- The parameters of a command, nested commands apart. -/
def parameters (place : FieldPath) (a : Action) (entries : Table Value) : List Remark :=
  let own := match a.nestedList? with
    | some field => entries.set field (.list [])
    | none => entries
  match Command.read (Data.table own) with
  | .ok _ => []
  | .error _ => remark place (.invalidParameters a)

mutual

/-- A list of commands. -/
def commands (place : FieldPath) : Value → List Remark
  | .list items => commandsFrom place 0 items
  | _ => remark place .notList

/-- The commands from position `i` on. -/
def commandsFrom (place : FieldPath) (i : Nat) : List Value → List Remark
  | [] => []
  | v :: items => command (place ++ [.index i]) v ++ commandsFrom place (i + 1) items

/-- A command. -/
def command (place : FieldPath) : Value → List Remark
  | .table entries =>
    match Table.get? entries "action" with
    | none => remark place (.lacks "action")
    | some named =>
      match named.text?.bind Action.ofName? with
      | none => remark (place ++ [.key "action"]) (.unknownAction named)
      | some a =>
        (match a.nestedList? with
          | some field => commandsUnder field (place ++ [.key field]) entries
          | none => []) ++ parameters place a entries
  | _ => remark place .notTable

/-- The list of commands that must be under a key. -/
def commandsUnder (key : String) (place : FieldPath) : List (String × Value) → List Remark
  | [] => remark place .absent
  | (k, v) :: rest => if k = key then commands place v else commandsUnder key place rest

end

mutual

/-- A node and what is below it. -/
def node (place : FieldPath) : Value → List Remark
  | .table entries =>
    match Table.get? entries "type" with
    | none => remark place (.lacks "type")
    | some (.text name) =>
      match NodeKind.ofName? name with
      | none => remark (place ++ [.key "type"]) (.unknownType name)
      | some kind =>
        ownFields place kind entries ++
          (match kind.layout.listField with
            | some field => childList place field entries
            | none => []) ++
          (kind.layout.slots.flatMap fun s => slotted place s entries) ++
          (if kind = .action then
            commandsUnder "behaviors" (place ++ [.key "behaviors"]) entries
          else [])
    | some _ => remark (place ++ [.key "type"]) .notText
  | _ => remark place .notTable

/-- The children under the list field of a node. -/
def childList (place : FieldPath) (field : String) : List (String × Value) → List Remark
  | [] => remark place (.lacks field)
  | (k, v) :: rest =>
    if k = field then children (place ++ [.key field]) v else childList place field rest

/-- The children in a list. -/
def children (place : FieldPath) : Value → List Remark
  | .list items => childrenFrom place 0 items
  | _ => remark place .notList

/-- The children from position `i` on. -/
def childrenFrom (place : FieldPath) (i : Nat) : List Value → List Remark
  | [] => []
  | v :: items => node (place ++ [.index i]) v ++ childrenFrom place (i + 1) items

/-- The child in a slot. -/
def slotted (place : FieldPath) (s : Slot) : List (String × Value) → List Remark
  | [] => remarkIf (s.required = true) place (.lacks s.field)
  | (k, v) :: rest =>
    if k = s.field then node (place ++ [.key s.field]) v else slotted place s rest

end

/-! ## Documents -/

/-- The name of a mob. A patch need not have one. -/
def name (isPatch : Bool) (entries : Table Value) : List Remark :=
  match entries.get? "name" with
  | none => remarkIf (isPatch = false) [.key "name"] .absent
  | some (.text s) => remarkIf (s = "") [.key "name"] .empty
  | some _ => remark [.key "name"] .notText

/-- The fields that are points. -/
def pointFields : List String := ["max_linear_speed", "linear_acceleration", "linear_deceleration"]

/-- The fields that are positive numbers. -/
def positiveFields : List String :=
  ["max_angular_speed", "angular_acceleration", "angular_deceleration", "collider_density",
    "projectile_speed", "projectile_range_seconds"]

/-- The fields of a mob with the check of each, in the order of the checks. -/
def fieldChecks : List (String × (FieldPath → Value → List Remark)) :=
  [("health", positiveInteger), ("projectile_damage", positiveInteger)] ++
    pointFields.map (fun field => (field, point)) ++
    positiveFields.map (fun field => (field, positive)) ++
    [("restitution", within 0 1), ("friction", within 0 10), ("colliders", items collider),
      ("projectile_spawners", spawners ["projectile_type", "faction"]),
      ("mob_spawners", spawners ["mob_ref"]), ("behavior", node), ("jointed_mobs", items joint),
      ("decorations", items decoration)]

/-- The keys of a document that are no fields of a mob. -/
def unknownFields (entries : Table Value) : List Remark :=
  (Record.unknownKeys Definition.fieldKeys entries).map fun key => ⟨[.key key], .unknownField⟩

/-- All remarks on a document. -/
def document (isPatch : Bool) (v : Value) : List Remark :=
  match v with
  | .table entries =>
    unknownFields entries ++ name isPatch entries ++
      fieldChecks.flatMap fun (field, check) => entry entries field check []
  | _ => remark [] .rootNoTable

end Check

/-- A remark that cannot be worded, since an action in it cannot be shown. -/
structure Unwordable where
  remark : Remark

/-- The wording of the failure. -/
def Unwordable.message (_ : Unwordable) : String := "Cannot convert object to primitive value"

/-- The verdict on a document, unless one of the remarks cannot be worded. -/
def validate (isPatch : Bool) (v : Value) : Except Unwordable Verdict :=
  let remarks := Check.document isPatch v
  match remarks.find? fun r => !r.problem.isWordable with
  | some r => .error ⟨r⟩
  | none => .ok ⟨remarks⟩

end Bestiary
