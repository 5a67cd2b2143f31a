import Bestiary.Behavior.Node
import Bestiary.Schema.Basic

/-!
# Definitions

What a mob is made of. A definition is a value that conforms to `Definition.schema`; a patch names
any of its fields. The behavior tree is read leniently, all the rest strictly: the first issue
refuses the definition.

* `Definition.read` and `Definition.readPatch` read one for an entity, `Definition.toTable` writes
  it; `Definition.writtenFrom` writes fields and a tree that may hold anything.
* `DefinitionError.message` words a refusal.
-/

namespace Bestiary

/-- The fields of a mob as read, and its behavior tree. -/
structure Definition where
  fields : Table Value
  behavior : Option Behavior

/-- The first issue with the definition of an entity. -/
structure DefinitionError where
  entity : String
  issue : Issue

namespace DefinitionError

/-- The place of the field that the issue is about. -/
def place (e : DefinitionError) : FieldPath :=
  match e.issue.complaint with
  | .unknownKeys first _ => e.issue.path ++ [.key first]
  | _ => e.issue.path

/-- What is wrong with the field. -/
def detail (e : DefinitionError) : String :=
  match e.issue.complaint with
  | .unknownKeys first _ => s!"unknown field \"{first}\""
  | .missing => "missing required field"
  | _ => e.issue.message

/-- The text of the place, unless it is empty. -/
def field? (e : DefinitionError) : Option String :=
  if e.place.text = "" then none else some e.place.text

/-- The whole message. -/
def message (e : DefinitionError) : String :=
  match e.field? with
  | some field => s!"Mob definition error ({e.entity}, {field}): {e.detail}"
  | none => s!"Mob definition error ({e.entity}): {e.detail}"

end DefinitionError

namespace Definition

/-! ## The parts -/

/-- A number with decimal places, as a value: `digits * 10 ^ -places`. -/
def decimal (digits places : Nat) : Value := .number (.ofDecimal digits (-places))

/-- A point or size as a value. -/
def pairValue (x y : Value) : Value := .list [x, y]

/-- Two coordinates. -/
def point : Schema := .pair .number .number

/-- A field that must be there. -/
def needed (key : String) (s : Schema) : String × Presence × Schema := (key, .required, s)

/-- A field that may be absent. -/
def spare (key : String) (s : Schema) : String × Presence × Schema := (key, .optional, s)

/-- A field with a default. -/
def preset (key : String) (s : Schema) (v : Value) : String × Presence × Schema :=
  (key, .defaulted v, s)

/-- Two coordinates that are the origin by default. -/
def offset (key : String) : String × Presence × Schema :=
  preset key point (pairValue (.natural 0) (.natural 0))

/-- A whole number that fits a byte. -/
def byte : Schema := .natural (some 255)

/-- A whole number. -/
def count : Schema := .natural none

/-- The names of the physics layers. -/
def physicsLayers : List String :=
  ["Player", "AllyMob", "EnemyMob", "AllyProjectile", "EnemyProjectile", "AllyTentacle",
    "EnemyTentacle"]

/-- The shapes of colliders. -/
def shape : Schema :=
  .variants [.record [needed "Rectangle" point], .record [needed "Circle" .number],
    .record [needed "Capsule" point]]

/-- A collider. -/
def collider : Schema :=
  .record [needed "shape" shape, offset "position", preset "rotation" .number (.natural 0)]

/-- The collider of a mob that names none. -/
def defaultCollider : Value :=
  .table [("shape", .table [("Rectangle", pairValue (.natural 10) (.natural 10))]),
    ("position", pairValue (.natural 0) (.natural 0)), ("rotation", .natural 0)]

/-- The fields that both kinds of spawners have. -/
def spawnerFields : List (String × Presence × Schema) :=
  [needed "timer" .number, needed "position" point, needed "rotation" .number]

/-- What sets mobs free. -/
def mobSpawner : Schema := .record (spawnerFields ++ [needed "mob_ref" .text])

/-- What fires projectiles. -/
def projectileSpawner : Schema :=
  .record (spawnerFields ++
    [needed "projectile_type" (.oneOf ["Bullet", "Blast"]),
      needed "faction" (.oneOf ["Ally", "Enemy"]),
      preset "speed_multiplier" .number (.natural 1),
      preset "damage_multiplier" .number (.natural 1),
      preset "range_seconds_multiplier" .number (.natural 1),
      preset "pre_spawn_animation_start_time" .number (decimal 75 2),
      preset "pre_spawn_animation_end_time" .number (decimal 2 1)])

/-- Spawners of one kind under their keys. -/
def spawners (spawner : Schema) : Schema := .record [needed "spawners" (.dictionary spawner)]

/-- The range of a joint. -/
def angleLimit : Schema :=
  .record [needed "min" .number, needed "max" .number, needed "torque" .number]

/-- How a chain varies in length. -/
def randomChain : Schema := .record [needed "min_length" byte, needed "end_chance" .number]

/-- A chain of copies of a joint. -/
def chain : Schema :=
  .record [needed "length" byte, needed "pos_offset" point, needed "anchor_offset" point,
    spare "random_chain" randomChain]

/-- A mob that is attached by a joint. -/
def joint : Schema :=
  .record [needed "key" .text, needed "mob_ref" .mobRef, offset "offset_pos",
    offset "anchor_1_pos", offset "anchor_2_pos", spare "angle_limit_range" angleLimit,
    preset "compliance" .number (.natural 0), spare "chain" chain]

/-- A picture that is drawn with the mob, and where. -/
def decoration : Schema := .pair .text point

/-! ## The whole -/

/-- The fields of a mob in the order in which they are written. -/
def allFields : List (String × Presence × Schema) :=
  [needed "name" .text,
    preset "spawnable" .flag (.flag true),
    preset "colliders" (.list collider) (.list [defaultCollider]),
    preset "z_level" .number (.natural 0),
    preset "rotation_locked" .flag (.flag true),
    preset "max_linear_speed" point (pairValue (.natural 20) (.natural 20)),
    preset "linear_acceleration" point (pairValue (decimal 1 1) (decimal 1 1)),
    preset "linear_deceleration" point (pairValue (decimal 3 1) (decimal 3 1)),
    preset "angular_acceleration" .number (decimal 1 1),
    preset "angular_deceleration" .number (decimal 1 1),
    preset "max_angular_speed" .number (.natural 1),
    preset "restitution" .number (decimal 5 1),
    preset "friction" .number (decimal 5 1),
    preset "collider_density" .number (.natural 1),
    preset "collision_layer_membership" (.list (.oneOf physicsLayers)) (.texts ["EnemyMob"]),
    preset "collision_layer_filter" (.list (.oneOf physicsLayers))
      (.texts ["AllyMob", "AllyProjectile", "EnemyMob", "Player", "EnemyTentacle"]),
    preset "health" count (.natural 50),
    spare "targeting_range" .number,
    preset "projectile_speed" .number (.natural 100),
    preset "projectile_damage" count (.natural 5),
    preset "projectile_range_seconds" .number (.natural 1),
    preset "sprite" .text (.text ""),
    preset "decorations" (.list decoration) (.list []),
    spare "mob_spawners" (spawners mobSpawner),
    spare "projectile_spawners" (spawners projectileSpawner),
    preset "jointed_mobs" (.list joint) (.list []),
    preset "behavior_transmitter" .flag (.flag false),
    spare "behavior" .anything]

/-- The keys of the fields of a mob. -/
def fieldKeys : List String := allFields.map Prod.fst

/-- The schema of a mob. -/
def schema : Schema := .record allFields

/-- The schema of a patch: any of the fields, and no defaults for the others. -/
def patchSchema : Schema := .record (Schema.allOptional allFields)

/-- The definition that a table read by the schema stands for. -/
def ofTable (t : Table Value) : Definition :=
  ⟨t.erase "behavior", (t.get? "behavior").map Node.read⟩

/-- The definition of an entity by a schema. -/
def readBy (s : Schema) (entity : String) (v : Value) : Except DefinitionError Definition :=
  match (s.read v).toExcept with
  | .ok v => .ok (ofTable (v.table?.getD []))
  | .error issue => .error ⟨entity, issue⟩

/-- The mob that a value defines. -/
def read (entity : String) (v : Value) : Except DefinitionError Definition :=
  readBy schema entity v

/-- The part of a mob that a patch names. -/
def readPatch (entity : String) (v : Value) : Except DefinitionError Definition :=
  readBy patchSchema entity v

/-- The written form, the behavior tree last. -/
def toTable (m : Definition) : Table Value :=
  m.fields ++ (m.behavior.map fun n => ("behavior", n.toData)).toList

/-- What a mob is written as: its fields that are not absent, then its behavior tree; or the first
thing in them that is no value. -/
def writtenFrom (fields : Table Loose) (behavior : Option (Node Foreign)) :
    Except NarrowError (Table Value) := do
  let entries ← Loose.narrowEntries [] (Loose.withoutAbsentEntries fields)
  match behavior with
  | none => pure entries
  | some n => do
    let tree ← n.toValue
    pure (Table.set entries "behavior" tree)

/-- `writtenFrom` for a mob whose fields and tree hold values only. -/
def written (m : Definition) : Except NarrowError (Table Value) :=
  writtenFrom (Data.mapEntries Empty.elim m.fields) (m.behavior.map Node.loosen)

/-- Whether the mob may be spawned on its own. -/
def isSpawnable (m : Definition) : Bool :=
  match m.fields.get? "spawnable" with
  | some (.flag b) => b
  | _ => false

end Definition

end Bestiary
