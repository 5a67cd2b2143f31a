import Bestiary.Behavior.Compile
import Bestiary.Mob.Resolve

/-!
# The registry

What the game looks mobs up in: the mobs of a resolution with their compiled behavior trees. A mob
is found by its name or by a path that names it.

* `Registry.build` compiles every tree, `Registry.warnings` are the reports.
* `Registry.find?` and `Registry.plan?` look a reference up.
-/

namespace Bestiary

/-- The mobs of a resolution and their compiled trees. -/
structure Registry where
  root : String
  mobs : Table Definition
  compiled : Table Compiled

namespace Registry

/-- The compiled tree of each mob that has one. -/
def compileAll (mobs : Table Definition) : Table Compiled :=
  mobs.filterMap fun (name, m) => m.behavior.map fun n => (name, n.compile)

/-- The registry of a resolution below an asset root. -/
def build (root : String) (r : Resolution) : Registry := ⟨root, r.mobs, compileAll r.mobs⟩

/-- What compiling the trees reported, mob by mob. -/
def warnings (r : Registry) : List String :=
  r.compiled.flatMap fun (name, c) => c.diagnostics.map fun d => s!"[{name}] {d.message}"

/-- The number of mobs. -/
def size (r : Registry) : Nat := r.mobs.length

/-- The mob that a reference stands for. -/
def find? (r : Registry) (ref : String) : Option Definition := r.mobs.get? (nameOf r.root ref)

/-- The compiled tree of the mob that a reference stands for. -/
def plan? (r : Registry) (ref : String) : Option Plan :=
  (r.compiled.get? (nameOf r.root ref)).map Compiled.plan

/-- Whether there is a mob for a reference. -/
def contains (r : Registry) (ref : String) : Bool := (r.find? ref).isSome

/-- The names of the mobs in order. -/
def names (r : Registry) : List String := Text.sort r.mobs.keys

/-- The names of the mobs that may be spawned on their own. -/
def spawnable (r : Registry) : List String :=
  r.names.filter fun name => (r.mobs.get? name).any Definition.isSpawnable

end Registry

end Bestiary
