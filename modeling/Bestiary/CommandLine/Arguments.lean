import Bestiary.Text.Digits
import Bestiary.Text.Split
import Bestiary.Text.Units
import Bestiary.Tree.Path

/-!
# Arguments

What the arguments of a command say: flags with and without values, and the rest.

* `flagValue?` and `positionals` read arguments.
* `TreePath.read?` reads the path of a node as it is typed; `TreePath.path?` gives the positions.
-/

namespace Bestiary

/-- The argument after the first occurrence of a flag. -/
def flagValue? (flag : String) : (args : List String) → Option String
  | [] => none
  | arg :: args => if arg = flag then args.head? else flagValue? flag args

/-- The flags that every command takes with a value. -/
def globalFlags : List String := ["--config", "--format"]

/-- Whether an argument looks like a flag with a long name. -/
def isLongFlag (arg : String) : Bool := (Text.withoutStart? "--" arg).isSome

/-- The arguments that are neither flags nor values of the flags that take one. -/
def positionals (valueFlags : List String) : (args : List String) → List String
  | [] => []
  | [arg] => if (globalFlags ++ valueFlags).contains arg || isLongFlag arg then [] else [arg]
  | arg :: next :: args =>
    if (globalFlags ++ valueFlags).contains arg then positionals valueFlags args
    else if isLongFlag arg then positionals valueFlags (next :: args)
    else arg :: positionals valueFlags (next :: args)

/-- A path as it is typed: a number for each step, or none where the number is too large. -/
abbrev TreePath := List (Option Number)

namespace TreePath

/-- One step of a typed path. -/
def readStep? (step : String) : Option (Option Number) :=
  let digits := step.toList
  if digits.isEmpty || !digits.all Text.isDigit then none
  else some (Number.ofDecimal? false ⟨Text.numeral 10 digits, 0⟩)

/-- A typed path: digits with dots between them. The root is the empty text or its name. -/
def read? (text : String) : Option TreePath :=
  if text = "" ∨ text = "root" then some []
  else (Text.split '.' text).mapM readStep?

/-- The message about a text that is no path. -/
def invalidMessage (text : String) : String :=
  s!"Invalid tree path: {text}. Use dot-separated indexes such as 0.1"

/-- The positions of a typed path. A number that is too large is the position of nothing. -/
def path? (path : TreePath) : Option Tree.Path :=
  path.mapM fun step => step.bind Number.toInt?

/-- The text of a step. -/
def stepText : Option Number → String
  | some n => n.text
  | none => "Infinity"

/-- The text of a typed path. -/
def text (path : TreePath) : String := ".".intercalate (path.map stepText)

end TreePath

end Bestiary
