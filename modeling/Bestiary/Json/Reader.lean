import Bestiary.Data.Basic
import Bestiary.Text.Digits

/-!
# Reading JSON

A reader for JSON texts that keeps the order of keys. Of two entries under one key the later value
counts, at the place of the earlier. A number past the largest one is read as infinite.

* `Json.read` reads a whole text; none for a text that is no JSON.
* A reader returns what it read and the characters that follow.
-/

namespace Bestiary.Json

/-- The characters after the blanks in front. -/
def skipBlanks (cs : List Char) : List Char :=
  cs.dropWhile fun c => c = ' ' || c = '\t' || c = '\n' || c = '\r'

/-! ## Texts -/

/-- The character that a letter after a backslash stands for. -/
def escaped? : Char → Option Char
  | '"' => some '"'
  | '\\' => some '\\'
  | '/' => some '/'
  | 'b' => some '\x08'
  | 'f' => some '\x0c'
  | 'n' => some '\n'
  | 'r' => some '\r'
  | 't' => some '\t'
  | _ => none

/-- The codes written up to the closing quote. A `\u` escape gives one 16-bit unit. -/
def readCodes : List Char → Option (List Nat × List Char)
  | [] => none
  | '"' :: rest => some ([], rest)
  | '\\' :: 'u' :: a :: b :: c :: d :: rest => do
    let unit ← Text.hexNumeral? [a, b, c, d]
    let (codes, rest) ← readCodes rest
    pure (unit :: codes, rest)
  | '\\' :: letter :: rest => do
    let c ← escaped? letter
    let (codes, rest) ← readCodes rest
    pure (c.toNat :: codes, rest)
  | c :: rest =>
    if c.toNat < 0x20 || c = '\\' then none
    else do
      let (codes, rest) ← readCodes rest
      pure (c.toNat :: codes, rest)

/-- Whether a code is the first unit of a surrogate pair. -/
def isHighUnit (n : Nat) : Bool := 0xD800 ≤ n && n < 0xDC00

/-- Whether a code is the second unit of a surrogate pair. -/
def isLowUnit (n : Nat) : Bool := 0xDC00 ≤ n && n < 0xE000

/-- The characters of the codes. Two units of a surrogate pair make one character, a unit without
its partner becomes U+FFFD. -/
def joinUnits : List Nat → List Char
  | [] => []
  | a :: b :: rest =>
    if isHighUnit a && isLowUnit b then
      Char.ofNat (0x10000 + (a - 0xD800) * 0x400 + (b - 0xDC00)) :: joinUnits rest
    else (if isHighUnit a || isLowUnit a then '\uFFFD' else Char.ofNat a) :: joinUnits (b :: rest)
  | [a] => [if isHighUnit a || isLowUnit a then '\uFFFD' else Char.ofNat a]

/-- A text whose opening quote has been read. -/
def readText (cs : List Char) : Option (String × List Char) := do
  let (codes, rest) ← readCodes cs
  pure (String.ofList (joinUnits codes), rest)

/-! ## Numbers -/

/-- One or more digits. -/
def readDigits (cs : List Char) : Option (List Char × List Char) :=
  let digits := cs.takeWhile Text.isDigit
  if digits.isEmpty then none else some (digits, cs.dropWhile Text.isDigit)

/-- The digits before the point: a zero alone, or digits that do not start with one. -/
def readWhole : List Char → Option (List Char × List Char)
  | '0' :: rest => some (['0'], rest)
  | cs => readDigits cs

/-- The digits after a point, if there is one. -/
def readFraction : List Char → Option (List Char × List Char)
  | '.' :: rest => readDigits rest
  | cs => some ([], cs)

/-- The number that one or more digits stand for. -/
def readNatural (cs : List Char) : Option (Nat × List Char) :=
  (readDigits cs).map fun (digits, rest) => (Text.numeral 10 digits, rest)

/-- The digits of an exponent, after its letter. -/
def readSignedExponent : List Char → Option (Int × List Char)
  | '-' :: rest => (readNatural rest).map fun (n, rest) => (-(n : Int), rest)
  | '+' :: rest => (readNatural rest).map fun (n, rest) => ((n : Int), rest)
  | cs => (readNatural cs).map fun (n, rest) => ((n : Int), rest)

/-- An exponent, if there is one. -/
def readExponent : List Char → Option (Int × List Char)
  | 'e' :: rest => readSignedExponent rest
  | 'E' :: rest => readSignedExponent rest
  | cs => some (0, cs)

/-- A number without its sign. -/
def readMagnitude (negative : Bool) (cs : List Char) : Option (Loose × List Char) := do
  let (whole, rest) ← readWhole cs
  let (fraction, rest) ← readFraction rest
  let (exponent, rest) ← readExponent rest
  let decimal : Decimal := ⟨Text.numeral 10 (whole ++ fraction), exponent - fraction.length⟩
  match Number.ofDecimal? negative decimal with
  | some n => pure (.number n, rest)
  | none => pure (.alien (.infinite negative), rest)

/-- A number. -/
def readNumber : List Char → Option (Loose × List Char)
  | '-' :: rest => readMagnitude true rest
  | cs => readMagnitude false cs

/-! ## Data -/

mutual

/-- A datum, with at most `fuel` steps down and along. -/
def readData : Nat → List Char → Option (Loose × List Char)
  | 0, _ => none
  | fuel + 1, cs =>
    match skipBlanks cs with
    | '"' :: rest => (readText rest).map fun (s, rest) => (.text s, rest)
    | '[' :: rest =>
      match skipBlanks rest with
      | ']' :: rest => some (.list [], rest)
      | rest => (readItems fuel rest).map fun (items, rest) => (.list items, rest)
    | '{' :: rest =>
      match skipBlanks rest with
      | '}' :: rest => some (.table [], rest)
      | rest => (readEntries fuel rest).map fun (entries, rest) =>
          (.table (Table.ofEntries entries), rest)
    | 't' :: 'r' :: 'u' :: 'e' :: rest => some (.flag true, rest)
    | 'f' :: 'a' :: 'l' :: 's' :: 'e' :: rest => some (.flag false, rest)
    | 'n' :: 'u' :: 'l' :: 'l' :: rest => some (.alien .null, rest)
    | cs => readNumber cs

/-- Items up to the closing bracket; at least one. -/
def readItems : Nat → List Char → Option (List Loose × List Char)
  | 0, _ => none
  | fuel + 1, cs => do
    let (item, rest) ← readData fuel cs
    match skipBlanks rest with
    | ',' :: rest =>
      let (items, rest) ← readItems fuel rest
      pure (item :: items, rest)
    | ']' :: rest => pure ([item], rest)
    | _ => none

/-- Entries up to the closing brace; at least one. -/
def readEntries : Nat → List Char → Option (List (String × Loose) × List Char)
  | 0, _ => none
  | fuel + 1, cs =>
    match skipBlanks cs with
    | '"' :: rest => do
      let (key, rest) ← readText rest
      match skipBlanks rest with
      | ':' :: rest =>
        let (item, rest) ← readData fuel rest
        match skipBlanks rest with
        | ',' :: rest =>
          let (entries, rest) ← readEntries fuel rest
          pure ((key, item) :: entries, rest)
        | '}' :: rest => pure ([(key, item)], rest)
        | _ => none
      | _ => none
    | _ => none

end

/-- The datum that a text is the JSON of. -/
def read (text : String) : Option Loose := do
  let cs := text.toList
  let (d, rest) ← readData (2 * cs.length + 2) cs
  if (skipBlanks rest).isEmpty then some d else none

end Bestiary.Json
