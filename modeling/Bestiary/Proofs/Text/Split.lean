import Bestiary.Text.Split

/-!
# Parts of texts

Parts without the separator in them, joined by it, are what the joined text is cut into.

* `Text.split_intercalate` says so, `Text.split_append` of two texts that may have more parts each.
* `Text.not_mem_of_mem_split`: no part of a text has the separator in it.
* `Text.exists_split_append`: what is added to a text makes its last part longer.
-/

namespace Bestiary.Text

/-- The cut into characters is that of lists. -/
theorem splitChars_eq_splitOn (sep : Char) (cs : List Char) :
    splitChars sep cs = cs.splitOn sep := by
  induction cs with
  | nil => rfl
  | cons c cs ih =>
    rw [splitChars, ih, List.splitOn_cons_eq_if_modifyHead]
    cases h : cs.splitOn sep with
    | nil => exact absurd h (List.splitOn_ne_nil sep cs)
    | cons part parts => simp

theorem splitChars_of_not_mem {sep : Char} {cs : List Char} (h : sep ∉ cs) :
    splitChars sep cs = [cs] := by
  rw [splitChars_eq_splitOn, List.splitOn_eq_singleton h]

/-- Texts with a separator between them have the parts of both. -/
theorem splitChars_append_cons (sep : Char) (cs more : List Char) :
    splitChars sep (cs ++ sep :: more) = splitChars sep cs ++ splitChars sep more := by
  induction cs with
  | nil => simp [splitChars]
  | cons c cs ih =>
    rw [List.cons_append, splitChars, ih, splitChars]
    split
    · rfl
    · cases h : splitChars sep cs with
      | nil => exact absurd h (splitChars_ne_nil sep cs)
      | cons part parts => rfl

theorem split_append (sep : Char) (s more : String) :
    split sep (s ++ String.singleton sep ++ more) = split sep s ++ split sep more := by
  rw [split, String.toList_append, String.toList_append, String.toList_singleton,
    List.append_assoc, List.singleton_append, splitChars_append_cons, List.map_append]
  rfl

theorem split_of_not_mem {sep : Char} {s : String} (h : sep ∉ s.toList) : split sep s = [s] := by
  rw [split, splitChars_of_not_mem h, List.map_singleton, String.ofList_toList]

/-- No part has the separator in it. -/
theorem not_mem_of_mem_splitChars {sep : Char} {cs part : List Char}
    (h : part ∈ splitChars sep cs) : sep ∉ part := by
  induction cs generalizing part with
  | nil =>
    rw [List.mem_singleton.mp h]
    exact List.not_mem_nil
  | cons c cs ih =>
    rw [splitChars] at h
    split at h
    · rcases List.mem_cons.mp h with rfl | h
      · exact List.not_mem_nil
      · exact ih h
    · rename_i hc
      cases hparts : splitChars sep cs with
      | nil => exact absurd hparts (splitChars_ne_nil sep cs)
      | cons first parts =>
        rw [hparts] at h ih
        rcases List.mem_cons.mp h with rfl | h
        · rw [List.mem_cons, not_or]
          exact ⟨Ne.symm hc, ih List.mem_cons_self⟩
        · exact ih (List.mem_cons_of_mem _ h)

theorem not_mem_of_mem_split {sep : Char} {s part : String} (h : part ∈ split sep s) :
    sep ∉ part.toList := by
  obtain ⟨cs, hcs, rfl⟩ := List.mem_map.mp h
  rw [String.toList_ofList]
  exact not_mem_of_mem_splitChars hcs

/-- Without a separator in it, what is added to a text makes its last part longer. -/
theorem exists_splitChars_append (sep : Char) (cs : List Char) :
    ∃ parts last, ∀ more, sep ∉ more → splitChars sep (cs ++ more) = parts ++ [last ++ more] := by
  induction cs with
  | nil => exact ⟨[], [], fun _ hmore => splitChars_of_not_mem hmore⟩
  | cons c cs ih =>
    obtain ⟨parts, last, h⟩ := ih
    by_cases hc : c = sep
    · refine ⟨[] :: parts, last, fun more hmore => ?_⟩
      rw [List.cons_append, splitChars, if_pos hc, h more hmore, List.cons_append]
    · cases parts with
      | nil =>
        refine ⟨[], c :: last, fun more hmore => ?_⟩
        rw [List.cons_append, splitChars, if_neg hc, h more hmore]
        rfl
      | cons part parts =>
        refine ⟨(c :: part) :: parts, last, fun more hmore => ?_⟩
        rw [List.cons_append, splitChars, if_neg hc, h more hmore]
        rfl

theorem exists_split_append (sep : Char) (s : String) :
    ∃ parts last, ∀ more : String, sep ∉ more.toList →
      split sep (s ++ more) = parts ++ [last ++ more] := by
  obtain ⟨parts, last, h⟩ := exists_splitChars_append sep s.toList
  refine ⟨parts.map String.ofList, String.ofList last, fun more hmore => ?_⟩
  rw [split, String.toList_append, h more.toList hmore, List.map_append, List.map_singleton,
    String.ofList_append, String.ofList_toList]

/-- **Parts come back** that were joined by a character that is in none of them. -/
theorem split_intercalate {sep : Char} {parts : List String} (hne : parts ≠ [])
    (h : ∀ part ∈ parts, sep ∉ part.toList) :
    split sep ((String.singleton sep).intercalate parts) = parts := by
  have hcut : ([sep].intercalate (parts.map String.toList)).splitOn sep =
      parts.map String.toList :=
    List.splitOn_intercalate sep (by simpa using h) (by simpa using hne)
  rw [split, splitChars_eq_splitOn, String.toList_intercalate, String.toList_singleton, hcut,
    List.map_map]
  simp [Function.comp_def]

end Bestiary.Text
