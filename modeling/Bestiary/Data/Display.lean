import Bestiary.Data.Basic

/-!
# Values inside messages

A value in the midst of a message: texts as they are, the items of a list with commas between them,
a table as a fixed text. A table with an entry `toString` cannot be shown, nor can a list that
holds one.

* `Value.display?` gives the text; `Value.isShowable` tells whether there is one.
-/

namespace Bestiary.Value

/-- The key whose entry keeps a table from being shown. -/
def displayKey : String := "toString"

mutual

/-- The text of a value inside a message. -/
def display? : Value → Option String
  | .text s => some s
  | .number n => some n.text
  | .flag b => some (if b then "true" else "false")
  | .list items => (displayItems? items).map fun texts => ",".intercalate texts
  | .table entries =>
    if Table.has entries displayKey then none else some "[object Object]"

/-- The text of each item. -/
def displayItems? : List Value → Option (List String)
  | [] => some []
  | v :: items => (display? v).bind fun text => (displayItems? items).map (text :: ·)

end

/-- Whether a value can be shown. -/
def isShowable (v : Value) : Bool := (display? v).isSome

end Bestiary.Value
