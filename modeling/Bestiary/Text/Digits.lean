/-!
# Digits

Values of decimal and hexadecimal digits, and of runs of them. ASCII digits only.
-/

namespace Bestiary.Text

/-- Whether a character is an ASCII decimal digit. -/
def isDigit (c : Char) : Bool := '0' ≤ c && c ≤ '9'

/-- The value of a hexadecimal digit of either case. -/
def hexValue? (c : Char) : Option Nat :=
  if isDigit c then some (c.toNat - '0'.toNat)
  else if 'a' ≤ c && c ≤ 'f' then some (c.toNat - 'a'.toNat + 10)
  else if 'A' ≤ c && c ≤ 'F' then some (c.toNat - 'A'.toNat + 10)
  else none

/-- The number that a run of digits stands for in the given base; a character that is no digit
counts as zero. -/
def numeral (base : Nat) (digits : List Char) : Nat :=
  digits.foldl (fun n c => base * n + (hexValue? c).getD 0) 0

/-- The number of a run of hexadecimal digits, if it is one. -/
def hexNumeral? (digits : List Char) : Option Nat :=
  if digits.all fun c => (hexValue? c).isSome then some (numeral 16 digits) else none

/-- A hexadecimal digit in lower case. -/
def hexDigit (n : Nat) : Char := Nat.digitChar (n % 16)

end Bestiary.Text
