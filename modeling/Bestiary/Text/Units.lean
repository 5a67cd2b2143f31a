/-!
# Texts and their 16-bit units

The order in which names are sorted, and the cutting of a fixed start or end off a text.

Texts are ordered by their 16-bit units, lexicographically. It is the order of code points except
that a character from U+10000 up starts with a unit of the surrogate range, and so stands before
the characters from U+E000 to U+FFFF.

* `Text.units` is the view that the order is defined through.
* `Text.withoutStart?` and `Text.withoutEnd?` cut a text; `append_of_withoutStart?` and
  `append_of_withoutEnd?` say that what was cut off and what is left make up the text.
-/

namespace Bestiary.Text

/-- The 16-bit units of one character: itself, or two surrogates from U+10000 up. -/
def charUnits (c : Char) : List Nat :=
  if c.toNat < 0x10000 then [c.toNat]
  else [0xD800 + (c.toNat - 0x10000) / 0x400, 0xDC00 + (c.toNat - 0x10000) % 0x400]

/-- The 16-bit units of a text. -/
def units (s : String) : List Nat := s.toList.flatMap charUnits

/-- Whether `a` sorts strictly before `b`. -/
def before (a b : String) : Bool := decide (units a < units b)

/-- Whether `a` sorts before `b` or ties with it. -/
def notAfter (a b : String) : Bool := !before b a

/-- The texts in ascending order; equal texts keep their places. -/
def sort (texts : List String) : List String := texts.mergeSort notAfter

/-! ## Cutting -/

/-- What follows `start` in `cs`, if `cs` begins with it. -/
def cutStart? : (start cs : List Char) → Option (List Char)
  | [], cs => some cs
  | _ :: _, [] => none
  | a :: start, c :: cs => if a = c then cutStart? start cs else none

/-- What follows `start` in the text, if the text begins with it. -/
def withoutStart? (start s : String) : Option String :=
  (cutStart? start.toList s.toList).map String.ofList

/-- What stands before `stop` in the text, if the text ends with it. -/
def withoutEnd? (stop s : String) : Option String :=
  (cutStart? stop.toList.reverse s.toList.reverse).map fun cs => String.ofList cs.reverse

/-- Whether the text ends with `stop`. -/
def endsIn (stop s : String) : Bool := (withoutEnd? stop s).isSome

theorem append_of_cutStart? {start cs rest : List Char} (h : cutStart? start cs = some rest) :
    start ++ rest = cs := by
  induction start generalizing cs with
  | nil => simpa [cutStart?] using h.symm
  | cons a start ih =>
    cases cs with
    | nil => simp [cutStart?] at h
    | cons c cs =>
      by_cases e : a = c
      · subst e
        simp only [cutStart?, if_true] at h
        simp [ih h]
      · simp [cutStart?, e] at h

theorem cutStart?_append (start rest : List Char) :
    cutStart? start (start ++ rest) = some rest := by
  induction start with
  | nil => rfl
  | cons a start ih => simp [cutStart?, ih]

/-- What `withoutStart?` cuts off and what it leaves make up the text. -/
theorem append_of_withoutStart? {start s rest : String} (h : withoutStart? start s = some rest) :
    start ++ rest = s := by
  obtain ⟨cs, hcs, rfl⟩ := Option.map_eq_some_iff.1 h
  apply String.toList_injective
  simpa using append_of_cutStart? hcs

/-- What `withoutEnd?` leaves and what it cuts off make up the text. -/
theorem append_of_withoutEnd? {stop s rest : String} (h : withoutEnd? stop s = some rest) :
    rest ++ stop = s := by
  obtain ⟨cs, hcs, rfl⟩ := Option.map_eq_some_iff.1 h
  apply String.toList_injective
  simpa using congrArg List.reverse (append_of_cutStart? hcs)

end Bestiary.Text
