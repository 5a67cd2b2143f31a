/-!
# What can be wrong with a document text

The faults that the reader reports, with the text of each. A fault comes with the characters that
follow the place where it was noticed; from their number the line is counted.

* `Fault.message` is the wording, `Stop` a fault at its place, `Stop.line` its line.
* `WithRest` is what the readers of the parts of a document give if there is no fault.
-/

namespace Bestiary.Toml

/-- A fault in a document text. -/
inductive Fault where
  | invalidValue
  | unfinishedKey
  | endOfKey
  | emptyBareKey
  | multilineKey
  | keyCharacter
  | tableArrayEnd
  | lineEnd
  | commentCharacter
  | redefinedEntry
  | redefinedValue
  | nesting
  | separator
  | unfinishedArray
  | unfinishedTable
  | textCharacter
  | hexDigit
  | unicodeEscape
  | unknownEscape
  | escapedBlank
  | unfinishedText
  | datePart
  | timePart
  | invalidDate
  | leadingZero
  | underscore
  | numericCharacter
  | unfinishedNumber
  | lossyInteger
  deriving DecidableEq

/-- The wording of a fault. -/
def Fault.message : Fault → String
  | .invalidValue => "invalid value"
  | .unfinishedKey => "incomplete key-value: cannot find end of key"
  | .endOfKey => "unexpected end of key"
  | .emptyBareKey => "illegal empty bare key"
  | .multilineKey => "illegal quoted key: multiline strings are not allowed"
  | .keyCharacter => "illegal character in key"
  | .tableArrayEnd => "expected end of table array declaration"
  | .lineEnd => "each key-value declaration must be followed by an end-of-line"
  | .commentCharacter => "control characters are not allowed in comments"
  | .redefinedEntry => "trying to redefine an already defined table or value"
  | .redefinedValue => "trying to redefine an already defined value"
  | .nesting => "document contains excessively nested structures. aborting."
  | .separator => "expected comma or end of structure"
  | .unfinishedArray => "unfinished array"
  | .unfinishedTable => "unfinished table"
  | .textCharacter => "control characters are not allowed in strings"
  | .hexDigit => "invalid non-hex character in unicode escape"
  | .unicodeEscape => "invalid unicode escape"
  | .unknownEscape => "unrecognised escape sequence"
  | .escapedBlank => "invalid escape: only line-ending whitespace may be escaped"
  | .unfinishedText => "unfinished string"
  | .datePart => "invalid date-time: date part is malformed"
  | .timePart => "invalid date-time: time part is malformed"
  | .invalidDate => "invalid date"
  | .leadingZero => "illegal leading zero"
  | .underscore => "illegal underscore"
  | .numericCharacter => "illegal character in numeric literal"
  | .unfinishedNumber => "unfinished numeric value"
  | .lossyInteger => "integer value cannot be represented losslessly"

/-- A fault, and the characters that follow the place where it was noticed. -/
structure Stop where
  fault : Fault
  rest : List Char

/-- What was read of a document, and the characters that follow. -/
abbrev WithRest (α : Type) := α × List Char

/-- The line that a fault is on, counted from one. -/
def Stop.line (stop : Stop) (text : List Char) : Nat :=
  1 + (text.take (text.length - stop.rest.length)).count '\n'

/-! ## Character classes -/

/-- Whether a character is a space or a tab. -/
def isBlank (c : Char) : Bool := c = ' ' || c = '\t'

/-- Whether a character may not stand in comments and texts: one below U+0020 other than the tab,
or U+007F. -/
def isControl (c : Char) : Bool := (c.toNat < 0x20 && c ≠ '\t') || c.toNat = 0x7F

/-- Whether a line feed comes next. -/
def lineFeedNext : List Char → Bool
  | '\n' :: _ => true
  | _ => false

/-- Whether a carriage return in front of `rest` belongs to a line end. -/
def endsLine (c : Char) (rest : List Char) : Bool := c = '\r' && lineFeedNext rest

/-- The characters after the spaces and tabs in front. -/
def skipBlanks (cs : List Char) : List Char := cs.dropWhile isBlank

/-- The characters after the blanks, line ends and comments in front; `comment` says whether the
place is inside a comment. -/
def skipVoid : Bool → List Char → Except Stop (List Char)
  | _, [] => .ok []
  | true, c :: rest =>
    if c = '\n' then skipVoid false rest
    else if isControl c && !endsLine c rest then .error ⟨.commentCharacter, c :: rest⟩
    else skipVoid true rest
  | false, c :: rest =>
    if c = '#' then skipVoid true rest
    else if isBlank c || c = '\n' || endsLine c rest then skipVoid false rest
    else .ok (c :: rest)

/-- The characters after the rest of a comment, from its line end on. -/
def skipComment : List Char → Except Stop (List Char)
  | [] => .ok []
  | c :: rest =>
    if c = '\n' || endsLine c rest then .ok (c :: rest)
    else if isControl c then .error ⟨.commentCharacter, c :: rest⟩
    else skipComment rest

/-- The characters after the blanks and the comment that may follow a declaration. -/
def skipTrail (cs : List Char) : Except Stop (List Char) :=
  match skipBlanks cs with
  | '#' :: rest => skipComment rest
  | rest => .ok rest

end Bestiary.Toml
