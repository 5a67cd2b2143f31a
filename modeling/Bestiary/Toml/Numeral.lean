import Bestiary.Data.Basic
import Bestiary.Toml.Fault
import Bestiary.Text.Digits

/-!
# Numbers in documents

Decimal integers and fractions with an optional exponent, integers with base 16, 8 and 2, and the
words `inf` and `nan`. Single underscores may stand between digits. An integer is accepted when
its size is at most `2 ^ 53 - 1`.

* `readNumeral` reads a number from its sign on. `closing` is the bracket that ends the structure
  around it.
-/

namespace Bestiary.Toml

/-- Whether a character ends a number. -/
def endsNumeral (closing : Option Char) (c : Char) : Bool :=
  isBlank c || c = '\n' || c = '\r' || c = '#' ||
    match closing with
    | some bracket => c = ',' || c = bracket
    | none => false

/-- Whether a number ends in front of `cs`. -/
def numeralEnds (closing : Option Char) : List Char → Bool
  | [] => true
  | c :: _ => endsNumeral closing c

/-- Where in a decimal numeral a character stands. -/
inductive Section where
  | whole
  | fraction
  | exponent
  deriving DecidableEq

/-- The digits of a decimal numeral, section by section. -/
structure Digits where
  whole : List Char := []
  fraction : List Char := []
  exponent : Option (Bool × List Char) := none

namespace Digits

/-- The digits with one more in front of a section. -/
def cons (d : Digits) (c : Char) : Section → Digits
  | .whole => { d with whole := c :: d.whole }
  | .fraction => { d with fraction := c :: d.fraction }
  | .exponent => { d with exponent := d.exponent.map fun (minus, digits) => (minus, c :: digits) }

/-- Whether there is neither a fraction nor an exponent. -/
def isInteger (d : Digits) : Bool := d.fraction.isEmpty && d.exponent.isNone

/-- The value of the digits. -/
def decimal (d : Digits) : Decimal :=
  let shift : Int :=
    match d.exponent with
    | some (true, digits) => -(Text.numeral 10 digits : Int)
    | some (false, digits) => Text.numeral 10 digits
    | none => 0
  ⟨Text.numeral 10 (d.whole ++ d.fraction), shift - d.fraction.length⟩

end Digits

/-- What the character before the current place was. -/
inductive Before where
  | digit
  | underscore
  | point
  | mark
  | sign
  deriving DecidableEq

/-- The digits of a decimal numeral up to its end. `start` is the text from its sign on. -/
def readDecimal (start : List Char) (closing : Option Char) :
    Section → Before → List Char → Except Stop (WithRest Digits)
  | part, before, [] => finish part before []
  | part, before, c :: rest =>
    if endsNumeral closing c then finish part before (c :: rest)
    else if Text.isDigit c then
      (readDecimal start closing part .digit rest).map fun (d, rest) => (d.cons c part, rest)
    else if c = '_' then
      if before = .digit then readDecimal start closing part .underscore rest
      else .error ⟨.underscore, c :: rest⟩
    else if c = '.' && part = .whole && before = .digit then
      readDecimal start closing .fraction .point rest
    else if (c = 'e' || c = 'E') && part ≠ .exponent && before = .digit then
      readDecimal start closing .exponent .mark rest
    else if (c = '+' || c = '-') && before = .mark then
      (readDecimal start closing .exponent .sign rest).map fun (d, rest) =>
        ({ d with exponent := d.exponent.map fun (_, digits) => (c = '-', digits) }, rest)
    else .error ⟨.numericCharacter, c :: rest⟩
where
  /-- The end of the numeral, after a digit. -/
  finish (part : Section) (before : Before) (rest : List Char) : Except Stop (WithRest Digits) :=
    if before = .digit then
      .ok ({ exponent := if part = .exponent then some (false, []) else none }, rest)
    else .error ⟨.unfinishedNumber, start⟩

/-- The number of an integer numeral. -/
def integer (start : List Char) (negative : Bool) (n : Nat) : Except Stop Loose :=
  if n ≤ Number.largestSafe then
    .ok (.number ((Number.ofInt? (if negative then -(n : Int) else n)).getD .zero))
  else .error ⟨.lossyInteger, start⟩

/-- The number of a decimal numeral. -/
def decimalNumber (start : List Char) (negative : Bool) (d : Digits) : Except Stop Loose :=
  if d.isInteger then integer start negative (Text.numeral 10 d.whole)
  else
    match Number.ofDecimal? negative d.decimal with
    | some n => .ok (.number n)
    | none => .ok (.alien (.infinite negative))

/-- The base that a letter after a leading zero announces. -/
def base? : Char → Option Nat
  | 'x' => some 16
  | 'o' => some 8
  | 'b' => some 2
  | _ => none

/-- The digits of an integer with a base, up to its end. -/
def readBased (base : Nat) (closing : Option Char) :
    Before → List Char → Except Stop (WithRest (List Char))
  | before, [] => if before = .digit then .ok ([], []) else .error ⟨.unfinishedNumber, []⟩
  | before, c :: rest =>
    if endsNumeral closing c then
      if before = .digit then .ok ([], c :: rest) else .error ⟨.unfinishedNumber, c :: rest⟩
    else if c = '_' then
      if before = .digit then readBased base closing .underscore rest
      else .error ⟨.underscore, c :: rest⟩
    else if (Text.hexValue? c).any (· < base) then
      (readBased base closing .digit rest).map fun (digits, rest) => (c :: digits, rest)
    else .error ⟨.numericCharacter, c :: rest⟩

/-- A number after its sign. -/
def readUnsigned (start : List Char) (closing : Option Char) (sign : Option Char)
    (cs : List Char) : Except Stop (WithRest Loose) :=
  let negative := sign = some '-'
  let decimal := do
    let (d, rest) ← readDecimal start closing .whole .sign cs
    let n ← decimalNumber start negative d
    pure (n, rest)
  match cs with
  | 'i' :: 'n' :: 'f' :: rest => .ok (.alien (.infinite negative), rest)
  | 'n' :: 'a' :: 'n' :: rest => .ok (.alien .notANumber, rest)
  | '0' :: rest =>
    if numeralEnds closing rest then decimal
    else
      match rest with
      | c :: digits =>
        if c = '.' || c = 'e' || c = 'E' then decimal
        else
          match if sign.isNone then base? c else none with
          | some base => do
            let (ds, rest) ← readBased base closing .mark digits
            let n ← integer start false (Text.numeral base ds)
            pure (n, rest)
          | none => .error ⟨.leadingZero, start⟩
      | [] => .error ⟨.leadingZero, start⟩
  | c :: _ => if Text.isDigit c then decimal else .error ⟨.invalidValue, start⟩
  | [] => .error ⟨.invalidValue, start⟩

/-- A number from its sign on. -/
def readNumeral (closing : Option Char) (cs : List Char) : Except Stop (WithRest Loose) :=
  match cs with
  | '+' :: rest => readUnsigned cs closing (some '+') rest
  | '-' :: rest => readUnsigned cs closing (some '-') rest
  | rest => readUnsigned cs closing none rest

end Bestiary.Toml
