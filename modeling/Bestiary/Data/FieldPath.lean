import Bestiary.Number.Decimal

/-!
# Places inside data

A place is a list of steps, each a key or a position. Messages write it in one of two ways:
`colliders[0].shape`, or with all steps joined by dots.
-/

namespace Bestiary

/-- One step down into data. -/
inductive Step where
  | key (name : String)
  | index (i : Int)
  deriving DecidableEq

/-- Steps from the root of a document to a place in it. -/
abbrev FieldPath := List Step

namespace FieldPath

/-- A path text with one more step: positions in brackets, keys after a dot unless they come
first. -/
def appendStep (text : String) : Step → String
  | .index i => s!"{text}[{Number.integerText i}]"
  | .key name => if text = "" then name else s!"{text}.{name}"

/-- The path as `colliders[0].shape`. -/
def text (path : FieldPath) : String := path.foldl appendStep ""

/-- The path with its steps joined by dots. -/
def dotted (path : FieldPath) : String :=
  ".".intercalate <| path.map fun
    | .key name => name
    | .index i => Number.integerText i

end FieldPath

end Bestiary
