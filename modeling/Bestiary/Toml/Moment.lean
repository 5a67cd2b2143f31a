import Bestiary.Data.Basic
import Bestiary.Toml.Fault
import Bestiary.Text.Digits

/-!
# Dates and times in documents

Dates and times are recognised, and checked for plausible parts, but they are no values: what is
read is a datum outside the value model.

* `looksLikeDate` and `looksLikeTime` say which values are read as moments.
* `readDate` and `readTime` find where the moment ends; `isMoment` checks what stands there.
-/

namespace Bestiary.Toml

/-- Whether the first `n` characters are digits. -/
def digitsFirst (n : Nat) (cs : List Char) : Bool :=
  (cs.take n).length = n && (cs.take n).all Text.isDigit

/-- Whether a value is laid out as a date: two dashes at their places, after four digits. -/
def looksLikeDate (cs : List Char) : Bool :=
  cs[4]? = some '-' && cs[7]? = some '-'

/-- Whether a value is laid out as a time: a colon after two characters. -/
def looksLikeTime (cs : List Char) : Bool := cs[2]? = some ':'

/-! ## The check -/

/-- A number of two digits within bounds, and what follows it. -/
def twoDigits? (low high : Nat) : List Char → Option (List Char)
  | a :: b :: rest =>
    let n := Text.numeral 10 [a, b]
    if Text.isDigit a && Text.isDigit b && low ≤ n && n ≤ high then some rest else none
  | _ => none

/-- What follows an expected character. -/
def expect? (c : Char) : List Char → Option (List Char)
  | d :: rest => if c = d then some rest else none
  | [] => none

/-- What follows a fraction of a second, if there is one; a point needs digits. -/
def fractionEnd? : List Char → Option (List Char)
  | '.' :: rest => if digitsFirst 1 rest then some (rest.dropWhile Text.isDigit) else none
  | cs => some cs

/-- What follows the seconds, if there are any. -/
def secondsEnd? : List Char → Option (List Char)
  | ':' :: rest => do fractionEnd? (← twoDigits? 0 59 rest)
  | cs => some cs

/-- What follows a time of day. -/
def timeEnd? (cs : List Char) : Option (List Char) := do
  let cs ← twoDigits? 0 23 cs
  let cs ← expect? ':' cs
  let cs ← twoDigits? 0 59 cs
  secondsEnd? cs

/-- What follows a distance from universal time, if there is one. -/
def offsetEnd? : List Char → Option (List Char)
  | 'Z' :: rest => some rest
  | 'z' :: rest => some rest
  | c :: rest =>
    if c = '+' || c = '-' then do
      let cs ← twoDigits? 0 23 rest
      let cs ← expect? ':' cs
      twoDigits? 0 59 cs
    else some (c :: rest)
  | [] => some []

/-- What follows a date. -/
def dateEnd? (cs : List Char) : Option (List Char) := do
  let cs ← twoDigits? 0 99 cs
  let cs ← twoDigits? 0 99 cs
  let cs ← expect? '-' cs
  let cs ← twoDigits? 1 12 cs
  let cs ← expect? '-' cs
  twoDigits? 1 31 cs

/-- Whether the characters are a whole date, with or without a time of day. -/
def isDate (cs : List Char) : Bool :=
  match dateEnd? cs with
  | none => false
  | some [] => true
  | some (_ :: time) =>
    match (timeEnd? time).bind offsetEnd? with
    | some rest => rest.isEmpty
    | none => false

/-- Whether the characters are a whole time of day. -/
def isTime (cs : List Char) : Bool := (timeEnd? cs).any List.isEmpty

/-! ## Finding the end -/

/-- How many characters the fraction at the front takes. -/
def fractionLength : List Char → Nat
  | '.' :: rest => 1 + (rest.takeWhile Text.isDigit).length
  | _ => 0

/-- How many characters the offset at the front takes. -/
def offsetLength : List Char → Nat
  | c :: _ => if c = 'Z' || c = 'z' then 1 else if c = '+' || c = '-' then 6 else 0
  | [] => 0

/-- How many characters a time of day takes: hours and minutes, then seconds after a colon, then a
fraction. -/
def timeLength (cs : List Char) : Nat :=
  let seconds := if cs[5]? = some ':' then 8 else 5
  seconds + fractionLength (cs.drop seconds)

/-- Whether a time of day follows a date: after a `T`, or after a space and a digit. -/
def timeFollows : List Char → Bool
  | c :: rest => c = 'T' || c = 't' || (c = ' ' && digitsFirst 1 rest)
  | [] => false

/-- A moment that takes `length` characters, after its check. -/
def moment (valid : List Char → Bool) (length : Nat) (cs : List Char) :
    Except Stop (WithRest Loose) :=
  if valid (cs.take length) then .ok (.alien .moment, cs.drop length)
  else .error ⟨.invalidDate, cs⟩

/-- A value laid out as a date. -/
def readDate (cs : List Char) : Except Stop (WithRest Loose) :=
  if cs[9]?.any Text.isDigit then
    let after := cs.drop 10
    if timeFollows after then
      if after[3]? = some ':' then
        let clock := timeLength (after.drop 1)
        moment isDate (11 + clock + offsetLength (after.drop (1 + clock))) cs
      else .error ⟨.timePart, cs⟩
    else moment isDate 10 cs
  else .error ⟨.datePart, cs⟩

/-- A value laid out as a time of day. -/
def readTime (cs : List Char) : Except Stop (WithRest Loose) := moment isTime (timeLength cs) cs

end Bestiary.Toml
