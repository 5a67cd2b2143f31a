/-!
# Actions

The names of the commands that a mob can be given. Most take no parameters; they differ in nothing
but their name.

* `Action.all` lists the actions in the order in which messages name them.
* `Action.ofName?_name` and `name_of_ofName?` say that names identify actions.
-/

namespace Bestiary

/-- Commands without parameters. -/
inductive SimpleAction where
  | moveDown
  | moveUp
  | moveLeft
  | moveRight
  | brakeHorizontal
  | brakeAngular
  | findPlayerTarget
  | moveToTarget
  | rotateToTarget
  | moveForward
  | loseTarget
  deriving DecidableEq

/-- What a spawn command sets free. -/
inductive Spawned where
  | mob
  | projectile
  deriving DecidableEq

/-- The kinds of commands. -/
inductive Action where
  | simple (action : SimpleAction)
  | moveTo
  | spawn (what : Spawned)
  | doForTime
  | transmit
  | rotateJoints
  deriving DecidableEq

/-- The name of a command without parameters. -/
def SimpleAction.name : SimpleAction → String
  | .moveDown => "MoveDown"
  | .moveUp => "MoveUp"
  | .moveLeft => "MoveLeft"
  | .moveRight => "MoveRight"
  | .brakeHorizontal => "BrakeHorizontal"
  | .brakeAngular => "BrakeAngular"
  | .findPlayerTarget => "FindPlayerTarget"
  | .moveToTarget => "MoveToTarget"
  | .rotateToTarget => "RotateToTarget"
  | .moveForward => "MoveForward"
  | .loseTarget => "LoseTarget"

/-- The name of a spawn command. -/
def Spawned.name : Spawned → String
  | .mob => "SpawnMob"
  | .projectile => "SpawnProjectile"

namespace Action

/-- The name of an action. -/
def name : Action → String
  | .simple a => a.name
  | .moveTo => "MoveTo"
  | .spawn s => s.name
  | .doForTime => "DoForTime"
  | .transmit => "TransmitMobBehavior"
  | .rotateJoints => "RotateJointsClockwise"

/-- Every action. -/
def all : List Action :=
  [.simple .moveDown, .simple .moveUp, .simple .moveLeft, .simple .moveRight,
    .simple .brakeHorizontal, .simple .brakeAngular, .moveTo, .simple .findPlayerTarget,
    .simple .moveToTarget, .simple .rotateToTarget, .simple .moveForward, .simple .loseTarget,
    .spawn .mob, .spawn .projectile, .doForTime, .transmit, .rotateJoints]

/-- The action of a name. -/
def ofName? (name : String) : Option Action := all.find? fun a => a.name = name

theorem name_of_ofName? {name : String} {a : Action} (h : ofName? name = some a) :
    a.name = name := by
  simpa using List.find?_some h

@[simp] theorem ofName?_name (a : Action) : ofName? a.name = some a := by
  cases a with
  | simple s => cases s <;> decide
  | spawn s => cases s <;> decide
  | _ => decide

end Action

end Bestiary
