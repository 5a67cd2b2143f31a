import Bestiary.Proofs.Text.Digits
import Bestiary.Toml.QuotedText
import Bestiary.Toml.Writer
import Mathlib.Data.List.TakeWhile

/-!
# Quoted texts read back

Every character inside quotes is written as itself, as a letter after a backslash, or with its
number; the reader takes each of the three back to the character.

* `readBasic_escaped`: one character.
* `readQuoted_quoted`: a whole text.
-/

namespace Bestiary.Toml

/-- A character inside the quotes of a document text. -/
def escapedChar (c : Char) : List Char :=
  if c.toNat = 0x7F then Json.unitEscape c else Json.quotedChar c

theorem toList_quoted (s : String) :
    (quoted s).toList = '"' :: (s.toList.flatMap escapedChar ++ ['"']) := by
  unfold quoted
  rw [String.toList_ofList]
  rfl

variable {start rest : List Char}

/-! ## One character -/

theorem scalar?_toNat (c : Char) : scalar? c.toNat = some c :=
  dif_pos c.valid

/-- The digits of the number of a character. -/
theorem hexEscape_ok {ds : List Char} (hds : ∀ d ∈ ds, (Text.hexValue? d).isSome = true) {c : Char}
    (hc : Text.numeral 16 ds = c.toNat) (rest escape : List Char) :
    hexEscape escape (ds ++ rest) ds.length = .ok c := by
  have hgood : ds.takeWhile (fun d => (Text.hexValue? d).isSome) = ds :=
    List.takeWhile_eq_self_iff.mpr hds
  unfold hexEscape
  simp only [List.take_left, hgood, hc, scalar?_toNat, Nat.lt_irrefl, if_false]

theorem readBasic_hexEscape (ds : List Char) :
    readBasic start false false 0 ('\\' :: 'u' :: ds) =
      (hexEscape ('\\' :: 'u' :: ds) ds 4).bind fun e =>
        (readBasic start false false 5 ('u' :: ds)).map fun p => (e :: p.1, p.2) :=
  rfl

/-- A character with its number. -/
theorem readBasic_unitEscape {c : Char} (hc : c.toNat < 256) (cs : List Char) :
    readBasic start false false 0 (Json.unitEscape c ++ cs) =
      (readBasic start false false 0 cs).map fun p => (c :: p.1, p.2) := by
  have hzero : Text.hexValue? '0' = some 0 := rfl
  have hdigits : ∀ d ∈ ['0', '0', Text.hexDigit (c.toNat / 16), Text.hexDigit c.toNat],
      (Text.hexValue? d).isSome = true := by
    simp [Text.hexValue?_hexDigit, hzero]
  have hnumeral : Text.numeral 16
      ['0', '0', Text.hexDigit (c.toNat / 16), Text.hexDigit c.toNat] = c.toNat := by
    simp only [Text.numeral, List.foldl_cons, List.foldl_nil, Text.hexValue?_hexDigit, hzero,
      Option.getD_some]
    omega
  have hescape := hexEscape_ok hdigits hnumeral cs
  unfold Json.unitEscape
  simp only [List.cons_append, List.nil_append, List.length_cons, List.length_nil] at hescape ⊢
  rw [readBasic_hexEscape, hescape]
  rfl

/-- A letter after a backslash. -/
theorem readBasic_letter {c l : Char} (h : Json.letter? c = some l) (cs : List Char) :
    readBasic start false false 0 ('\\' :: l :: cs) =
      (readBasic start false false 0 cs).map fun p => (c :: p.1, p.2) := by
  unfold Json.letter? at h
  split at h <;> first | (obtain rfl := Option.some.inj h; rfl) | exact absurd h (by simp)

/-- A character as it is. -/
theorem readBasic_plain {c : Char} (hletter : Json.letter? c = none) (hlow : ¬c.toNat < 0x20)
    (hdel : c.toNat ≠ 0x7F) (cs : List Char) :
    readBasic start false false 0 (c :: cs) =
      (readBasic start false false 0 cs).map fun p => (c :: p.1, p.2) := by
  have hquote : c ≠ '"' := by
    rintro rfl
    exact absurd hletter (by decide)
  have hslash : c ≠ '\\' := by
    rintro rfl
    exact absurd hletter (by decide)
  have hread : refusedInText false c cs = false := by
    simp [refusedInText, isControl, hlow, hdel]
  rw [readBasic.eq_def start false false 0 (c :: cs)]
  simp only [Bool.false_and, Bool.false_eq_true, if_false, hquote, hslash, hread]

/-- **A character that was written is read back.** -/
theorem readBasic_escaped (c : Char) (cs : List Char) :
    readBasic start false false 0 (escapedChar c ++ cs) =
      (readBasic start false false 0 cs).map fun p => (c :: p.1, p.2) := by
  unfold escapedChar Json.quotedChar
  split
  · exact readBasic_unitEscape (by omega) cs
  · rename_i hdel
    split
    · rename_i l hl
      exact readBasic_letter hl cs
    · rename_i hletter
      split
      · exact readBasic_unitEscape (by omega) cs
      · rename_i hlow
        exact readBasic_plain hletter hlow hdel cs

/-! ## Whole texts -/

theorem readBasic_flatMap (s : List Char) :
    readBasic start false false 0 (s.flatMap escapedChar ++ '"' :: rest) = .ok (s, rest) := by
  induction s with
  | nil => rfl
  | cons c s ih =>
    rw [List.flatMap_cons, List.append_assoc, readBasic_escaped, ih]
    rfl

/-- What stands for a character does not start with a quote. -/
theorem escapedChar_eq_cons (c : Char) : ∃ e es, escapedChar c = e :: es ∧ e ≠ '"' := by
  unfold escapedChar Json.quotedChar
  split
  · exact ⟨_, _, rfl, by decide⟩
  · split
    · exact ⟨_, _, rfl, by decide⟩
    · rename_i hletter
      split
      · exact ⟨_, _, rfl, by decide⟩
      · refine ⟨_, _, rfl, ?_⟩
        rintro rfl
        exact absurd hletter (by decide)

/-- A text in quotes does not open a text of several lines. -/
theorem opensLines_quoted (s : String) (hrest : rest.head? ≠ some '"') :
    opensLines '"' ((quoted s).toList ++ rest) = false := by
  rw [toList_quoted]
  unfold opensLines
  rw [decide_eq_false_iff_not]
  cases hs : s.toList with
  | nil =>
    cases rest with
    | nil => simp
    | cons c rest =>
      rw [List.head?_cons] at hrest
      simpa using fun h : c = '"' => hrest (congrArg some h)
  | cons c cs =>
    obtain ⟨e, es, he, hne⟩ := escapedChar_eq_cons c
    simp [he, List.replicate, hne]

/-- **A text that was written is read back.** -/
theorem readQuoted_quoted (s : String) (hrest : rest.head? ≠ some '"') :
    readQuoted '"' ((quoted s).toList ++ rest) = .ok (s, rest) := by
  unfold readQuoted
  rw [opensLines_quoted s hrest]
  simp only [Bool.false_eq_true, if_false, if_true]
  rw [toList_quoted, List.cons_append, List.drop_one, List.tail_cons, List.append_assoc,
    List.singleton_append, readBasic_flatMap]
  simp only [Except.map, String.ofList_toList]

end Bestiary.Toml
