import Bestiary.Behavior.Command
import Bestiary.Data.Display
import Bestiary.Mob.Definition

/-!
# Problems

What the authoring checks have to say about a document. Most problems are errors; a type or a shape
that is merely unknown is a warning, since a later version of the game may know it.

* `Problem.severity` and `Problem.message` describe a problem; a `Remark` has its place.
* A `Verdict` lists the remarks on a document. It is valid without errors.
-/

namespace Bestiary

/-- How grave a problem is. -/
inductive Severity where
  | error
  | warning
  deriving DecidableEq

/-- The name of a severity. -/
def Severity.name : Severity → String
  | .error => "error"
  | .warning => "warning"

/-- The label of a severity in a listing. -/
def Severity.label : Severity → String
  | .error => "ERROR"
  | .warning => "WARN"

/-- What can be wrong with a document. -/
inductive Problem where
  | nothingOpen
  | rootNoTable
  | unknownField
  | absent
  | lacks (field : String)
  | notText
  | notNumber
  | notInteger
  | notList
  | notTable
  | empty
  | notPositive
  | notPositiveInteger
  | outside (least most : Nat)
  | notPoint
  | notTwoNumbers
  | elementNotNumber (i : Nat)
  | shapeNoTable
  | shapeNotSingle
  | rectangleNotTwo
  | rectangleNotNumber (i : Nat)
  | rectangleNotPositive (i : Nat)
  | circleNotNumber
  | circleNotPositive
  | capsuleNotTwo
  | unknownShape (name : String)
  | unknownType (name : String)
  | invalidNode (kind : NodeKind) (reason : Unreadable)
  | unknownAction (action : Value)
  | invalidParameters (action : Action)
  | decorationNotList
  | decorationNotTwo
  | spriteNotText
  | positionNotList
  | positionNotTwo
  | refused (error : DefinitionError)

namespace Problem

/-- How grave a problem is. -/
def severity : Problem → Severity
  | .unknownShape _ => .warning
  | .unknownType _ => .warning
  | _ => .error

/-- The wording of a problem. -/
def message : Problem → String
  | .nothingOpen => "No document open"
  | .rootNoTable => "Root must be a table"
  | .unknownField => "Unknown field"
  | .absent => "Required field is missing"
  | .lacks field => s!"Missing required field '{field}'"
  | .notText => "Must be a string"
  | .notNumber => "Must be a number"
  | .notInteger => "Must be an integer"
  | .notList => "Must be an array"
  | .notTable => "Must be a table"
  | .empty => "Cannot be empty"
  | .notPositive => "Must be positive"
  | .notPositiveInteger => "Must be a positive integer"
  | .outside least most => s!"Must be between {least} and {most}"
  | .notPoint => "Must be an array [x, y]"
  | .notTwoNumbers => "Must be an array of 2 numbers [x, y]"
  | .elementNotNumber i => s!"Element {i} must be a number"
  | .shapeNoTable => "Shape must be a table"
  | .shapeNotSingle => "Shape must have exactly one type"
  | .rectangleNotTwo => "Rectangle requires [width, height]"
  | .rectangleNotNumber i => s!"Rectangle dimension {i} must be a number"
  | .rectangleNotPositive i => s!"Rectangle dimension {i} must be positive"
  | .circleNotNumber => "Circle requires a radius number"
  | .circleNotPositive => "Circle radius must be positive"
  | .capsuleNotTwo => "Capsule requires [radius, half_length]"
  | .unknownShape name => s!"Unknown shape type '{name}'"
  | .unknownType name => s!"Unknown behavior type '{name}'"
  | .invalidNode kind reason => s!"Invalid {kind.name} node: {reason.text}"
  | .unknownAction action => "Unknown action " ++ singleQuoted ((Value.display? action).getD "")
  | .invalidParameters action => s!"Invalid parameters for {action.name}"
  | .decorationNotList => "Must be an array [sprite_key, [x, y]]"
  | .decorationNotTwo => "Must be [sprite_key, [x, y]]"
  | .spriteNotText => "First element must be a string (sprite key)"
  | .positionNotList => "Second element must be position [x, y]"
  | .positionNotTwo => "Position must be [x, y]"
  | .refused error => error.message

/-- Whether a problem can be worded: an action that is none must be showable. -/
def isWordable : Problem → Bool
  | .unknownAction action => action.isShowable
  | _ => true

end Problem

/-- A problem at a place. -/
structure Remark where
  place : FieldPath
  problem : Problem

/-- A remark as a line of a listing. -/
def Remark.line (r : Remark) : String :=
  let label := s!"[{r.problem.severity.label}] "
  if r.place.text = "" then label ++ r.problem.message
  else label ++ s!"{r.place.text}: {r.problem.message}"

/-- All remarks on a document. -/
structure Verdict where
  remarks : List Remark

namespace Verdict

/-- The number of remarks of a severity. -/
def count (v : Verdict) (s : Severity) : Nat :=
  v.remarks.countP fun r => r.problem.severity = s

/-- The number of errors. -/
def errorCount (v : Verdict) : Nat := v.count .error

/-- The number of warnings. -/
def warningCount (v : Verdict) : Nat := v.count .warning

/-- Whether there are no errors. -/
def isValid (v : Verdict) : Bool := v.errorCount = 0

/-- The remarks, one a line. -/
def listing (v : Verdict) : String := "\n".intercalate (v.remarks.map Remark.line)

end Verdict

end Bestiary
