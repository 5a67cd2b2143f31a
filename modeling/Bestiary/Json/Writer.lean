import Bestiary.Data.Basic
import Bestiary.Text.Digits

/-!
# Writing JSON

Two forms of one datum: compact, without blanks, and indented by two spaces a level. Things
outside the value model are written `null`.

* `Json.quoted` is the written form of a text, shared with the document format.
* `Json.compact` and `Json.indented` write data.
-/

namespace Bestiary.Json

/-- The letter that stands for a character after a backslash. -/
def letter? : Char → Option Char
  | '"' => some '"'
  | '\\' => some '\\'
  | '\x08' => some 'b'
  | '\x0c' => some 'f'
  | '\n' => some 'n'
  | '\r' => some 'r'
  | '\t' => some 't'
  | _ => none

/-- A character as a `\u00xx` escape. -/
def unitEscape (c : Char) : List Char :=
  ['\\', 'u', '0', '0', Text.hexDigit (c.toNat / 16), Text.hexDigit c.toNat]

/-- A character inside quotes. -/
def quotedChar (c : Char) : List Char :=
  match letter? c with
  | some l => ['\\', l]
  | none => if c.toNat < 0x20 then unitEscape c else [c]

/-- A text in quotes. -/
def quoted (s : String) : String :=
  String.ofList ('"' :: s.toList.flatMap quotedChar ++ ['"'])

variable {ε : Type}

/-- The text of a truth value. -/
def flagText (b : Bool) : String := if b then "true" else "false"

mutual

/-- JSON without blanks. -/
def compact : Data ε → String
  | .text s => quoted s
  | .number n => n.text
  | .flag b => flagText b
  | .list items => "[" ++ ",".intercalate (compactItems items) ++ "]"
  | .table entries => "\x7b" ++ ",".intercalate (compactEntries entries) ++ "\x7d"
  | .alien _ => "null"

/-- Each item without blanks. -/
def compactItems : List (Data ε) → List String
  | [] => []
  | d :: items => compact d :: compactItems items

/-- Each entry without blanks. -/
def compactEntries : List (String × Data ε) → List String
  | [] => []
  | (k, d) :: entries => (quoted k ++ ":" ++ compact d) :: compactEntries entries

end

/-- A line break and the indentation of a level. -/
def newline (level : Nat) : String := String.ofList ('\n' :: List.replicate (2 * level) ' ')

/-- Lines between brackets, one level in; nothing between them if there are none. -/
def block (opening closing : String) (level : Nat) (lines : List String) : String :=
  if lines.isEmpty then opening ++ closing
  else opening ++ newline (level + 1) ++ ("," ++ newline (level + 1)).intercalate lines ++
    newline level ++ closing

mutual

/-- JSON with a line for each item and entry, written at the given level. -/
def indentedAt (level : Nat) : Data ε → String
  | .text s => quoted s
  | .number n => n.text
  | .flag b => flagText b
  | .list items => block "[" "]" level (indentedItems (level + 1) items)
  | .table entries => block "\x7b" "\x7d" level (indentedEntries (level + 1) entries)
  | .alien _ => "null"

/-- Each item at the given level. -/
def indentedItems (level : Nat) : List (Data ε) → List String
  | [] => []
  | d :: items => indentedAt level d :: indentedItems level items

/-- Each entry at the given level. -/
def indentedEntries (level : Nat) : List (String × Data ε) → List String
  | [] => []
  | (k, d) :: entries => (quoted k ++ ": " ++ indentedAt level d) :: indentedEntries level entries

end

/-- JSON with a line for each item and entry. -/
def indented (d : Data ε) : String := indentedAt 0 d

end Bestiary.Json
