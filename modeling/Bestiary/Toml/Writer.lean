import Bestiary.Data.Basic
import Bestiary.Json.Writer
import Bestiary.Toml.Key

/-!
# Writing documents

A table is written as lines for its plain entries, followed by a section for each entry that is a
table or a series of tables, everything in the order of the keys. A table whose entries are all
sections needs no header of its own.

* `Toml.writeWith` gives the text of a table, or refuses a table that is nested too deeply. How
  numbers are written is a parameter of it.
* `Toml.write` writes numbers as `Toml.numberText` does.
-/

namespace Bestiary.Toml

-- Powers are the built-in ones, whatever other powers are in scope.
attribute [local instance (high)] instPowNat

/-- The refusal of a table nested deeper than the limit. -/
inductive WriteError where
  | tooDeep
  deriving DecidableEq

/-- The wording of a refusal. -/
def WriteError.message : WriteError → String
  | .tooDeep => "Could not stringify the object: maximum object depth exceeded"

/-- How many levels a table may have. -/
def depthLimit : Nat := 1000

/-- A text in quotes. U+007F is escaped, unlike in JSON. -/
def quoted (s : String) : String :=
  String.ofList ('"' :: s.toList.flatMap (fun c =>
    if c.toNat = 0x7F then Json.unitEscape c else Json.quotedChar c) ++ ['"'])

/-- A key, bare where it can be. -/
def keyText (key : String) : String :=
  if key ≠ "" ∧ key.toList.all isBare then key else quoted key

/-- From this size on numbers are written with an exponent. -/
def exponentFrom : Nat := 10 ^ (21 : Nat)

/-- A number. An integer past the safe ones is written with a decimal place, since it would not be
read back as an integer. -/
def numberText (x : Number) : String :=
  match x.toInt? with
  | some i =>
    if Number.largestSafe < i.natAbs ∧ i.natAbs < exponentFrom then
      Number.integerText i ++ ".0"
    else x.text
  | none => x.text

/-- The key of an entry below the table called `base`. -/
def below (base key : String) : String :=
  if base = "" then keyText key else base ++ "." ++ keyText key

/-- Whether a value is a series of tables: a list of tables and nothing else, not empty. -/
def isSeries : Value → Bool
  | .list items => !items.isEmpty && items.all Data.isTable
  | _ => false

/-- Whether an entry gets a section of its own. -/
def isSection (v : Value) : Bool := v.isTable || isSeries v

/-- The text of a table: a header, where it has one and needs it, its lines and its sections. -/
def tableText (header : Option String) (lines sections : List String) : String :=
  let body := String.join lines
  let subs := "\n".intercalate sections
  let body :=
    match header with
    | some name =>
      if body ≠ "" then s!"[{name}]\n{body}" else if subs = "" then s!"[{name}]" else body
    | none => body
  if body ≠ "" ∧ subs ≠ "" then body ++ "\n" ++ subs else body ++ subs

section

-- The text of a number.
variable (numeral : Number → String)

mutual

/-- A value in a line, with `depth` levels left. -/
def valueText : (depth : Nat) → Value → Except WriteError String
  | 0, _ => .error .tooDeep
  | _ + 1, .text s => .ok (quoted s)
  | _ + 1, .number n => .ok (numeral n)
  | _ + 1, .flag b => .ok (Json.flagText b)
  | depth + 1, .list items => do
    let texts ← itemTexts depth items
    pure (if texts.isEmpty then "[]" else "[ " ++ ", ".intercalate texts ++ " ]")
  | depth + 1, .table entries => do
    let texts ← inlineTexts depth entries
    pure (if texts.isEmpty then "\x7b\x7d" else "\x7b " ++ ", ".intercalate texts ++ " \x7d")

/-- The items of an array. -/
def itemTexts (depth : Nat) : List Value → Except WriteError (List String)
  | [] => .ok []
  | v :: items => do
    let text ← valueText depth v
    let texts ← itemTexts depth items
    pure (text :: texts)

/-- The entries of an inline table. -/
def inlineTexts (depth : Nat) : List (String × Value) → Except WriteError (List String)
  | [] => .ok []
  | (k, v) :: entries => do
    let text ← valueText depth v
    let texts ← inlineTexts depth entries
    pure ((keyText k ++ " = " ++ text) :: texts)

end

/-- The lines of a table: an entry each, sections left out. -/
def lineTexts (depth : Nat) (entries : List (String × Value)) : Except WriteError (List String) :=
  (entries.filter fun e => !isSection e.2).mapM fun e => do
    let text ← valueText numeral depth e.2
    pure (keyText e.1 ++ " = " ++ text ++ "\n")

mutual

/-- The section of an entry called `name`, with `depth` levels left; none for an entry that is
written in a line. -/
def sectionText? (name : String) : (depth : Nat) → Value → Except WriteError (Option String)
  | depth, .table entries => do
    if depth = 0 then .error .tooDeep
    else
      let lines ← lineTexts numeral depth entries
      let sections ← sectionTexts name (depth - 1) entries
      pure (some (tableText (some name) lines sections))
  | depth, .list items => do
    if !isSeries (.list items) then pure none
    else if depth = 0 then .error .tooDeep
    else
      let texts ← elementTexts name depth items
      pure (some ("\n".intercalate texts))
  | _, _ => .ok none

/-- The sections of the entries below the table called `base`. -/
def sectionTexts (base : String) (depth : Nat) :
    List (String × Value) → Except WriteError (List String)
  | [] => .ok []
  | (k, v) :: entries => do
    let text ← sectionText? (below base k) depth v
    let texts ← sectionTexts base depth entries
    pure (text.toList ++ texts)

/-- The elements of a series called `name`, each under its header. -/
def elementTexts (name : String) (depth : Nat) : List Value → Except WriteError (List String)
  | [] => .ok []
  | .table entries :: items => do
    let lines ← lineTexts numeral depth entries
    let sections ← sectionTexts name (depth - 1) entries
    let texts ← elementTexts name depth items
    pure ((s!"[[{name}]]\n" ++ tableText none lines sections) :: texts)
  | _ :: items => elementTexts name depth items

end

/-- A text with a line end behind it, unless it has one. -/
def withLineEnd (text : String) : String :=
  if text.toList.getLast? = some '\n' then text else text ++ "\n"

/-- The text of a table. -/
def writeWith (entries : Table Value) : Except WriteError String := do
  let lines ← lineTexts numeral depthLimit entries
  let sections ← sectionTexts numeral "" (depthLimit - 1) entries
  pure (withLineEnd (tableText none lines sections))

end

/-- The text of a table, integers past the safe ones with a decimal place. -/
def write (entries : Table Value) : Except WriteError String := writeWith numberText entries

end Bestiary.Toml
