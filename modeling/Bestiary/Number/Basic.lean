/-!
# Numbers

The one number type of the library: finite binary64 values with a single zero. Integers and
fractions are the same type, and two numbers are equal iff they are the same value.

Every finite binary64 value is a whole multiple of the least positive one, `2 ^ -1074`. A number
is kept as that multiple, so comparing numbers is comparing integers. `Representable` says which
multiples occur: those with at most 53 significant bits below `2 ^ 2098`.

* `Number.ofRatio?` rounds an exact quotient to the nearest number, a tie to the one with an even
  last bit; it gives none past the largest number.
* `Number.ofInt?` and `Number.toInt?` connect numbers and integers.
-/

namespace Bestiary

-- Powers are the built-in ones, whatever other powers are in scope.
attribute [local instance (high)] instPowNat

/-- How many low bits of `n` lie below its 53 leading ones. -/
def excessBits (n : Nat) : Nat := n.log2 - 52

/-- The number of bits of the largest number in units of `2 ^ -1074`. -/
def widest : Nat := 2098

/-- The first multiple of `2 ^ -1074` past the largest number. -/
def overflowBound : Nat := 2 ^ widest

theorem overflowBound_pos : 0 < overflowBound := Nat.two_pow_pos widest

/-- Whether `n` units of `2 ^ -1074` are a finite binary64 value: at most 53 significant bits, and
not past the largest one. -/
def Representable (n : Nat) : Prop := n % 2 ^ excessBits n = 0 ∧ n < overflowBound

instance : DecidablePred Representable := fun n =>
  inferInstanceAs (Decidable (n % 2 ^ excessBits n = 0 ∧ n < overflowBound))

/-- A finite binary64 value, as a multiple of `2 ^ -1074`. -/
structure Number where
  units : Int
  representable : Representable units.natAbs
  deriving DecidableEq

namespace Number

/-- The number 1 in units of `2 ^ -1074`. -/
def unitsPerOne : Nat := 2 ^ (1074 : Nat)

/-- The number of `units`, if it is one. -/
def ofUnits? (units : Int) : Option Number :=
  if h : Representable units.natAbs then some ⟨units, h⟩ else none

/-- The number zero. -/
def zero : Number := ⟨0, Nat.zero_mod _, overflowBound_pos⟩

instance : Inhabited Number := ⟨zero⟩

instance : LE Number := ⟨fun a b => a.units ≤ b.units⟩

instance : LT Number := ⟨fun a b => a.units < b.units⟩

instance (a b : Number) : Decidable (a ≤ b) := inferInstanceAs (Decidable (a.units ≤ b.units))

instance (a b : Number) : Decidable (a < b) := inferInstanceAs (Decidable (a.units < b.units))

/-- The quotient of `num` by `den` rounded to the nearest natural number, a tie to the even one. -/
def roundedQuotient (num den : Nat) : Nat :=
  let q := num / den
  let r := num % den
  if 2 * r < den ∨ 2 * r = den ∧ q % 2 = 0 then q else q + 1

/-- The multiple of `2 ^ -1074` with 53 significant bits that is nearest to `num / den` of them. -/
def nearestUnits (num den : Nat) : Nat :=
  let step := 2 ^ excessBits (num / den)
  roundedQuotient num (den * step) * step

/-- The number nearest to `num / den`, with a minus sign if `negative`; none if that lies past the
largest number. -/
def ofRatio? (negative : Bool) (num den : Nat) : Option Number :=
  let n := nearestUnits (num * unitsPerOne) den
  ofUnits? (if negative then -(n : Int) else n)

/-- The number nearest to an integer; none past the largest number. -/
def ofInt? (i : Int) : Option Number := ofRatio? (decide (i < 0)) i.natAbs 1

/-- The integer that the number is, if it is one. -/
def toInt? (x : Number) : Option Int :=
  if x.units % unitsPerOne = 0 then some (x.units / unitsPerOne) else none

/-- Whether the number is an integer. -/
def isInteger (x : Number) : Bool := x.toInt?.isSome

/-- The integers up to this size are all numbers, and each is read back from its digits. -/
def largestSafe : Nat := 2 ^ (53 : Nat) - 1

/-- A small natural number as a number. -/
def ofSmall (n : Nat) : Number := (ofInt? n).getD zero

@[simp] theorem ofUnits?_units (x : Number) : ofUnits? x.units = some x := by
  simp [ofUnits?, x.representable]

/-- An exact multiple rounds to itself. -/
theorem nearestUnits_mul {n den : Nat} (h : Representable n) (hd : 0 < den) :
    nearestUnits (n * den) den = n := by
  have hq : n * den / den = n := Nat.mul_div_cancel n hd
  have hstep : n / 2 ^ excessBits n * 2 ^ excessBits n = n :=
    Nat.div_mul_cancel (Nat.dvd_of_mod_eq_zero h.1)
  have hpos : 0 < den * 2 ^ excessBits n := Nat.mul_pos hd (Nat.two_pow_pos _)
  have hnum : n * den = n / 2 ^ excessBits n * (den * 2 ^ excessBits n) := by
    conv => lhs; rw [← hstep]
    rw [Nat.mul_assoc, Nat.mul_comm (2 ^ excessBits n) den]
  simp only [nearestUnits, hq, roundedQuotient]
  rw [hnum, Nat.mul_div_cancel _ hpos, Nat.mul_mod_left]
  simp [hpos, hstep]

/-- Rounding the exact value of a number gives the number. -/
theorem ofRatio?_units (x : Number) {den : Nat} (hd : 0 < den) (num : Nat)
    (h : num * unitsPerOne = x.units.natAbs * den) :
    ofRatio? (decide (x.units < 0)) num den = some x := by
  have hn : (if decide (x.units < 0) = true then -((x.units.natAbs : Nat) : Int)
      else (x.units.natAbs : Int)) = x.units := by
    simp only [decide_eq_true_eq]
    split <;> omega
  simp only [ofRatio?, h, nearestUnits_mul x.representable hd]
  rw [hn]
  exact ofUnits?_units x

end Number

end Bestiary
