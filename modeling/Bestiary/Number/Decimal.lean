import Bestiary.Number.Basic

/-!
# Decimal texts of numbers

Reading a decimal rounds it to the nearest number. Writing a number takes the fewest digits that
read back to it; of the decimals with that many digits, the nearest, and of two equally near ones
the one whose last digit is even.

* `Number.ofDecimal?` reads; `Number.shortest` selects the digits; `Number.text` lays them out.

Layout: a number whose decimal point stands within 21 places after the first digit, or at most
six places before it, is written positionally, any other with an exponent (`1e+21`, `1.5e-7`).
Integers have no point.
-/

namespace Bestiary

-- Powers are the built-in ones, whatever other powers are in scope.
attribute [local instance (high)] instPowNat

/-- The value `digits * 10 ^ exponent`. -/
structure Decimal where
  digits : Nat
  exponent : Int
  deriving DecidableEq

/-- How many decimal digits `n` has. -/
def digitCount (n : Nat) : Nat := (Nat.toDigits 10 n).length

namespace Decimal

/-- The place of the point: the value is below `10 ^ place`, and not below `10 ^ (place - 1)`
unless it is zero. -/
def place (d : Decimal) : Int := digitCount d.digits + d.exponent

/-- The value as a quotient of natural numbers. -/
def ratio (d : Decimal) : Nat × Nat :=
  (d.digits * 10 ^ d.exponent.toNat, 10 ^ (-d.exponent).toNat)

end Decimal

namespace Number

/-- A decimal whose point stands further than this from its first digit is past the largest
number or rounds to zero. -/
def farthestPlace : Int := 400

/-- The number nearest to a decimal, with a minus sign if `negative`; none past the largest
number. -/
def ofDecimal? (negative : Bool) (d : Decimal) : Option Number :=
  if d.digits = 0 ∨ d.place < -farthestPlace then some zero
  else if d.place > farthestPlace then none
  else ofRatio? negative d.ratio.1 d.ratio.2

/-- A number given by its decimal. -/
def ofDecimal (digits : Nat) (exponent : Int) : Number :=
  (ofDecimal? false ⟨digits, exponent⟩).getD zero

/-! ## Selecting the digits -/

/-- The least `k` with `num / den < 10 ^ k`, for a positive quotient. -/
def leadingPlace (num den : Nat) : Int :=
  if den ≤ num then digitCount (num / den)
  else
    let j := digitCount (den / num)
    if num * 10 ^ (j - 1) = den then 2 - j else 1 - j

/-- The two decimals with last digit at `10 ^ grid` around `num / den`, the nearer one first; of
two equally near ones the even one is first. -/
def neighbours (num den : Nat) (grid : Int) : Decimal × Decimal :=
  let n := num * 10 ^ (-grid).toNat
  let d := den * 10 ^ grid.toNat
  let low : Decimal := ⟨n / d, grid⟩
  let high : Decimal := ⟨n / d + 1, grid⟩
  if 2 * (n % d) < d ∨ 2 * (n % d) = d ∧ n / d % 2 = 0 then (low, high) else (high, low)

/-- The first of the two decimals that reads back to `x`, its sign apart. -/
def readingBack? (x : Number) (pair : Decimal × Decimal) : Option Decimal :=
  let negative := decide (x.units < 0)
  if ofDecimal? negative pair.1 = some x then some pair.1
  else if ofDecimal? negative pair.2 = some x then some pair.2
  else none

/-- The exact decimal value of a number, its sign apart. -/
def exactDecimal (x : Number) : Decimal := ⟨x.units.natAbs * 5 ^ (1074 : Nat), -1074⟩

/-- The decimal with the fewest digits that reads back to `x`, its sign apart. Seventeen digits
are enough for every number; the exact value stands behind them. -/
def shortest (x : Number) : Decimal :=
  let k := leadingPlace x.units.natAbs unitsPerOne
  let found := (List.range 17).findSome? fun (n : Nat) =>
    readingBack? x (neighbours x.units.natAbs unitsPerOne (k - (n + 1)))
  found.getD x.exactDecimal

/-! ## Layout -/

/-- The first `n` digits, the point, and the others. -/
def pointed (digits : List Char) (n : Nat) : List Char :=
  digits.take n ++ (if digits.length ≤ n then [] else '.' :: digits.drop n)

/-- The written form of significant digits with the point at `place`. -/
def layout (digits : List Char) (place : Int) : List Char :=
  if 0 < place ∧ place ≤ 21 then
    pointed (digits ++ List.replicate (place.toNat - digits.length) '0') place.toNat
  else if -6 < place ∧ place ≤ 0 then
    '0' :: '.' :: (List.replicate (-place).toNat '0' ++ digits)
  else
    let sign := if place - 1 < 0 then '-' else '+'
    pointed digits 1 ++ 'e' :: sign :: Nat.toDigits 10 (place - 1).natAbs

/-- The digits of a decimal without the zeros at their end. -/
def significant (d : Decimal) : List Char :=
  ((Nat.toDigits 10 d.digits).reverse.dropWhile (· = '0')).reverse

/-- The text of a number. -/
def text (x : Number) : String :=
  if x.units = 0 then "0"
  else
    let digits := layout (significant x.shortest) x.shortest.place
    String.ofList (if x.units < 0 then '-' :: digits else digits)

/-- The text of an integer. -/
def integerText (i : Int) : String :=
  String.ofList (if i < 0 then '-' :: Nat.toDigits 10 i.natAbs else Nat.toDigits 10 i.natAbs)

end Number

end Bestiary
