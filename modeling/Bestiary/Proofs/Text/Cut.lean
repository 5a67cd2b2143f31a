import Bestiary.Text.Units

/-!
# Texts that begin or end in others

What is added in front of a text or after it is cut off again, and nothing else is cut off.

* `Text.withoutStart?_append` and `Text.withoutEnd?_append` say so.
* `Text.endsIn_iff` says what it is to end in a text.
-/

namespace Bestiary.Text

variable {start stop s rest : String}

@[simp] theorem withoutStart?_append (start rest : String) :
    withoutStart? start (start ++ rest) = some rest := by
  rw [withoutStart?, String.toList_append, cutStart?_append, Option.map_some, String.ofList_toList]

@[simp] theorem withoutEnd?_append (rest stop : String) :
    withoutEnd? stop (rest ++ stop) = some rest := by
  rw [withoutEnd?, String.toList_append, List.reverse_append, cutStart?_append, Option.map_some,
    List.reverse_reverse, String.ofList_toList]

theorem endsIn_iff : endsIn stop s = true ↔ ∃ rest, s = rest ++ stop := by
  rw [endsIn, Option.isSome_iff_exists]
  constructor
  · rintro ⟨rest, h⟩
    exact ⟨rest, (append_of_withoutEnd? h).symm⟩
  · rintro ⟨rest, rfl⟩
    exact ⟨rest, withoutEnd?_append rest stop⟩

theorem withoutEnd?_eq_none_iff : withoutEnd? stop s = none ↔ endsIn stop s = false := by
  rw [endsIn, Option.isSome_eq_false_iff, Option.isNone_iff_eq_none]

/-! ## Lengths -/

/-- What is left of a text is shorter than it. -/
theorem length_of_withoutEnd? (h : withoutEnd? stop s = some rest) :
    rest.length + stop.length = s.length := by
  rw [← append_of_withoutEnd? h, String.length_append]

theorem length_of_withoutStart? (h : withoutStart? start s = some rest) :
    start.length + rest.length = s.length := by
  rw [← append_of_withoutStart? h, String.length_append]

end Bestiary.Text
