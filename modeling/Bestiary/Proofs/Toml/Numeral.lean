import Bestiary.Proofs.Number.Digits
import Bestiary.Toml.Reader

/-!
# Reading numerals back

A decimal numeral is digits, with a point and more digits, and an exponent, where there are any. Its
reader takes exactly the numeral and stops at what follows, and it is never mistaken for a moment.

* `Digits.chars` lays a numeral out; `Digits.IsNumeral` says which digits make one.
* `readDecimal_chars`: the reader gives back the digits.
* `readScalar_chars`: the value read is that of the digits.
-/

namespace Bestiary.Toml

/-- The bracket of the structure around a value, or none. -/
def IsClosing (closing : Option Char) : Prop :=
  closing = none ∨ closing = some ']' ∨ closing = some '}'

variable {closing : Option Char} {start rest : List Char}

theorem ne_of_isDigit {c d : Char} (hc : Text.isDigit c = true) (hd : Text.isDigit d = false) :
    c ≠ d := by
  rintro rfl
  exact absurd (hc.symm.trans hd) (by decide)

/-- No digit ends a numeral. -/
theorem endsNumeral_of_isDigit (hclosing : IsClosing closing) {c : Char}
    (hc : Text.isDigit c = true) : endsNumeral closing c = false := by
  have hne (d : Char) (hd : Text.isDigit d = false) : c ≠ d := ne_of_isDigit hc hd
  unfold endsNumeral isBlank
  rcases hclosing with rfl | rfl | rfl <;>
    simp [hne ' ' rfl, hne '\t' rfl, hne '\n' rfl, hne '\r' rfl, hne '#' rfl, hne ',' rfl,
      hne ']' rfl, hne '}' rfl]

theorem endsNumeral_point (hclosing : IsClosing closing) : endsNumeral closing '.' = false := by
  rcases hclosing with rfl | rfl | rfl <;> rfl

theorem endsNumeral_mark (hclosing : IsClosing closing) : endsNumeral closing 'e' = false := by
  rcases hclosing with rfl | rfl | rfl <;> rfl

theorem endsNumeral_sign (hclosing : IsClosing closing) (minus : Bool) :
    endsNumeral closing (if minus then '-' else '+') = false := by
  rcases hclosing with rfl | rfl | rfl <;> cases minus <;> rfl

/-- What ends a numeral is neither a digit nor a sign. -/
theorem not_isDigit_of_endsNumeral (hclosing : IsClosing closing) {c : Char}
    (h : endsNumeral closing c = true) : Text.isDigit c = false := by
  cases hc : Text.isDigit c with
  | false => rfl
  | true =>
    rw [endsNumeral_of_isDigit hclosing hc] at h
    exact absurd h (by decide)

/-! ## Laying numerals out -/

namespace Digits

/-- The point and the digits behind it. -/
def fractionChars (d : Digits) : List Char :=
  if d.fraction = [] then [] else '.' :: d.fraction

/-- The exponent. -/
def exponentChars (d : Digits) : List Char :=
  match d.exponent with
  | none => []
  | some (minus, ds) => 'e' :: (if minus then '-' else '+') :: ds

/-- The numeral with these digits. -/
def chars (d : Digits) : List Char := d.whole ++ (d.fractionChars ++ d.exponentChars)

/-- Digits that make a numeral: some in front of the point, without a zero too many, and some in the
exponent. -/
structure IsNumeral (d : Digits) : Prop where
  whole : ∀ c ∈ d.whole, Text.isDigit c = true
  whole_ne : d.whole ≠ []
  leading : d.whole = ['0'] ∨ d.whole.head? ≠ some '0'
  fraction : ∀ c ∈ d.fraction, Text.isDigit c = true
  exponent : ∀ minus ds, d.exponent = some (minus, ds) → ds ≠ [] ∧ ∀ c ∈ ds, Text.isDigit c = true

theorem foldr_cons_whole (ds : List Char) (d : Digits) :
    ds.foldr (fun c (d : Digits) => d.cons c .whole) d = { d with whole := ds ++ d.whole } := by
  induction ds with
  | nil => rfl
  | cons c ds ih => rw [List.foldr_cons, ih]; rfl

theorem foldr_cons_fraction (ds : List Char) (d : Digits) :
    ds.foldr (fun c (d : Digits) => d.cons c .fraction) d =
      { d with fraction := ds ++ d.fraction } := by
  induction ds with
  | nil => rfl
  | cons c ds ih => rw [List.foldr_cons, ih]; rfl

theorem foldr_cons_exponent (ds more : List Char) (minus : Bool) :
    ds.foldr (fun c (d : Digits) => d.cons c .exponent) { exponent := some (minus, more) } =
      { exponent := some (minus, ds ++ more) } := by
  induction ds with
  | nil => rfl
  | cons c ds ih => rw [List.foldr_cons, ih]; rfl

end Digits

/-! ## Reading the digits -/

/-- Where a numeral ends after a digit, there are no more digits. -/
theorem readDecimal_end (part : Section) (hends : numeralEnds closing rest = true) :
    readDecimal start closing part .digit rest =
      .ok ({ exponent := if part = .exponent then some (false, []) else none }, rest) := by
  cases rest with
  | nil => rfl
  | cons c rest =>
    have hc : endsNumeral closing c = true := hends
    rw [readDecimal, if_pos hc]
    rfl

theorem readDecimal_digit (hclosing : IsClosing closing) (part : Section) (before : Before)
    {c : Char} (hc : Text.isDigit c = true) (cs : List Char) :
    readDecimal start closing part before (c :: cs) =
      (readDecimal start closing part .digit cs).map fun p => (p.1.cons c part, p.2) := by
  rw [readDecimal, if_neg (by rw [endsNumeral_of_isDigit hclosing hc]; decide), if_pos hc]

/-- A run of digits is read digit by digit. -/
theorem readDecimal_digits (hclosing : IsClosing closing) (part : Section) (before : Before)
    {ds : List Char} (hds : ∀ c ∈ ds, Text.isDigit c = true) (hne : ds ≠ []) (cs : List Char) :
    readDecimal start closing part before (ds ++ cs) =
      (readDecimal start closing part .digit cs).map fun p =>
        (ds.foldr (fun c (d : Digits) => d.cons c part) p.1, p.2) := by
  induction ds generalizing before with
  | nil => exact absurd rfl hne
  | cons c ds ih =>
    rw [List.forall_mem_cons] at hds
    rw [List.cons_append, readDecimal_digit hclosing part before hds.1]
    cases ds with
    | nil => rfl
    | cons c' ds =>
      rw [ih .digit hds.2 (by simp)]
      cases readDecimal start closing part .digit cs <;> rfl

theorem readDecimal_exponent (hclosing : IsClosing closing) {part : Section}
    (hpart : part ≠ .exponent) {d : Digits} (hd : d.IsNumeral)
    (hends : numeralEnds closing rest = true) :
    readDecimal start closing part .digit (d.exponentChars ++ rest) =
      .ok ({ exponent := d.exponent }, rest) := by
  unfold Digits.exponentChars
  cases hexp : d.exponent with
  | none => rw [List.nil_append, readDecimal_end part hends, if_neg hpart]
  | some e =>
    obtain ⟨minus, ds⟩ := e
    obtain ⟨hne, hds⟩ := hd.exponent minus ds hexp
    have hmark : Text.isDigit 'e' = false := rfl
    have hsign : Text.isDigit (if minus then '-' else '+') = false := by cases minus <;> rfl
    simp only [List.cons_append]
    rw [readDecimal, endsNumeral_mark hclosing]
    simp only [hmark, hpart, Bool.false_eq_true, if_false, Char.reduceEq, decide_false,
      Bool.false_and, decide_true, Bool.true_or, ne_eq, not_false_eq_true, Bool.and_self, if_true]
    rw [readDecimal, endsNumeral_sign hclosing, hsign,
      readDecimal_digits hclosing .exponent .sign hds hne, readDecimal_end .exponent hends]
    simp only [if_true, Except.map, Digits.foldr_cons_exponent, List.append_nil]
    cases minus <;> rfl

theorem readDecimal_fraction (hclosing : IsClosing closing) {d : Digits} (hd : d.IsNumeral)
    (hends : numeralEnds closing rest = true) :
    readDecimal start closing .whole .digit (d.fractionChars ++ (d.exponentChars ++ rest)) =
      .ok ({ fraction := d.fraction, exponent := d.exponent }, rest) := by
  unfold Digits.fractionChars
  by_cases hfraction : d.fraction = []
  · rw [if_pos hfraction, List.nil_append, readDecimal_exponent hclosing (by decide) hd hends,
      hfraction]
  · have hpoint : Text.isDigit '.' = false := rfl
    rw [if_neg hfraction, List.cons_append, readDecimal, endsNumeral_point hclosing]
    simp only [hpoint, Bool.false_eq_true, if_false, Char.reduceEq, decide_true, Bool.and_self,
      if_true]
    rw [readDecimal_digits hclosing .fraction .point hd.fraction hfraction,
      readDecimal_exponent hclosing (by decide) hd hends]
    simp only [Except.map, Digits.foldr_cons_fraction, List.append_nil]

/-- **The digits of a numeral are read back.** -/
theorem readDecimal_chars (hclosing : IsClosing closing) {d : Digits} (hd : d.IsNumeral)
    (hends : numeralEnds closing rest = true) :
    readDecimal start closing .whole .sign (d.chars ++ rest) = .ok (d, rest) := by
  unfold Digits.chars
  rw [List.append_assoc, List.append_assoc,
    readDecimal_digits hclosing .whole .sign hd.whole hd.whole_ne,
    readDecimal_fraction hclosing hd hends]
  simp only [Except.map, Digits.foldr_cons_whole, List.append_nil]

/-! ## What follows the digits in front -/

/-- The part of a numeral behind its whole digits, and what follows, starts with nothing that could
go on with the digits of a date or a time. -/
theorem head?_of_fractionChars (hclosing : IsClosing closing) {d : Digits}
    (hends : numeralEnds closing rest = true) {c : Char}
    (hc : (d.fractionChars ++ (d.exponentChars ++ rest)).head? = some c) :
    Text.isDigit c = false ∧ c ≠ '-' ∧ c ≠ ':' ∧
      (endsNumeral closing c = true ∨ c = '.' ∨ c = 'e') := by
  unfold Digits.fractionChars Digits.exponentChars at hc
  split at hc
  · split at hc
    · cases rest with
      | nil => exact absurd hc (by simp)
      | cons e rest =>
        have he : endsNumeral closing e = true := hends
        obtain rfl : e = c := by simpa using hc
        refine ⟨not_isDigit_of_endsNumeral hclosing he, ?_, ?_, .inl he⟩
        · rintro rfl
          rcases hclosing with rfl | rfl | rfl <;> exact absurd he (by decide)
        · rintro rfl
          rcases hclosing with rfl | rfl | rfl <;> exact absurd he (by decide)
    · obtain rfl : 'e' = c := by simpa using hc
      exact ⟨rfl, by decide, by decide, .inr (.inr rfl)⟩
  · obtain rfl : '.' = c := by simpa using hc
    exact ⟨rfl, by decide, by decide, .inr (.inl rfl)⟩

/-- A run of `n` digits in front is not followed by a character that does not follow all of the
digits in front. -/
theorem getElem?_ne_of_digitsFirst {n : Nat} {ds cs : List Char} {q : Char}
    (hds : ∀ c ∈ ds, Text.isDigit c = true) (hq : Text.isDigit q = false)
    (hcs : ∀ c, cs.head? = some c → Text.isDigit c = false ∧ c ≠ q)
    (hfirst : digitsFirst n (ds ++ cs) = true) : (ds ++ cs)[n]? ≠ some q := by
  unfold digitsFirst at hfirst
  rw [Bool.and_eq_true, decide_eq_true_iff, List.length_take, List.all_eq_true] at hfirst
  obtain ⟨hlen, hall⟩ := hfirst
  intro hget
  rcases Nat.lt_trichotomy n ds.length with hlt | heq | hgt
  · rw [List.getElem?_append_left hlt] at hget
    exact ne_of_isDigit (hds q (List.mem_of_getElem? hget)) hq rfl
  · rw [heq, List.getElem?_append_right (Nat.le_refl _), Nat.sub_self, ← List.head?_eq_getElem?]
      at hget
    exact (hcs q hget).2 rfl
  · cases cs with
    | nil =>
      rw [List.append_nil] at hlen
      omega
    | cons c cs =>
      have hmem : c ∈ (ds ++ c :: cs).take n := by
        refine List.mem_iff_getElem?.mpr ⟨ds.length, ?_⟩
        rw [List.getElem?_take_of_lt hgt, List.getElem?_append_right (Nat.le_refl _), Nat.sub_self]
        rfl
      exact absurd (hall c hmem) (by rw [(hcs c rfl).1]; decide)

/-! ## Reading the number -/

/-- A numeral starts with a digit, and a zero in front is all there is in front of the point. -/
theorem chars_cases {d : Digits} (hd : d.IsNumeral) (rest : List Char) :
    ∃ c ds, d.whole = c :: ds ∧ Text.isDigit c = true ∧
      d.chars ++ rest = c :: (ds ++ (d.fractionChars ++ (d.exponentChars ++ rest))) ∧
      (c = '0' → ds = []) := by
  cases hwhole : d.whole with
  | nil => exact absurd hwhole hd.whole_ne
  | cons c ds =>
    refine ⟨c, ds, rfl, hd.whole c (hwhole ▸ List.mem_cons_self), ?_, ?_⟩
    · unfold Digits.chars
      rw [hwhole, List.append_assoc, List.append_assoc, List.cons_append]
    · rintro rfl
      rcases hd.leading with h | h
      · exact (List.cons.inj (hwhole.symm.trans h)).2
      · exact absurd (by rw [hwhole, List.head?_cons]) h

theorem readUnsigned_chars (hclosing : IsClosing closing) (sign : Option Char) {d : Digits}
    (hd : d.IsNumeral) (hends : numeralEnds closing rest = true) :
    readUnsigned start closing sign (d.chars ++ rest) =
      (decimalNumber start (sign = some '-') d).map fun n => (n, rest) := by
  have hread : (decimalNumber start (sign = some '-') d >>= fun n => pure (n, rest)) =
      (decimalNumber start (sign = some '-') d).map fun n => (n, rest) := by
    cases decimalNumber start (sign = some '-') d <;> rfl
  obtain ⟨c, ds, -, hc, hchars, hzero⟩ := chars_cases hd rest
  unfold readUnsigned
  simp only [readDecimal_chars hclosing hd hends]
  rw [hchars]
  split
  · rename_i h
    exact absurd (List.cons.inj h).1 (ne_of_isDigit hc rfl)
  · rename_i h
    exact absurd (List.cons.inj h).1 (ne_of_isDigit hc rfl)
  · rename_i tail h
    obtain ⟨hc0, htail⟩ := List.cons.inj h
    rw [hzero hc0, List.nil_append] at htail
    split
    · exact hread
    · rename_i hgoes
      cases tail with
      | nil => exact absurd rfl hgoes
      | cons e tail =>
        have hhead := head?_of_fractionChars hclosing (d := d) hends (c := e) (by rw [htail]; rfl)
        rcases hhead.2.2.2 with he | rfl | rfl
        · exact absurd he hgoes
        · exact hread
        · exact hread
  · rename_i e tail _ _ _ h
    obtain ⟨rfl, -⟩ := List.cons.inj h
    rw [if_pos hc]
    exact hread
  · rename_i h
    exact absurd h (by simp)

/-- A numeral without a sign is no moment. -/
theorem readScalar_chars_unsigned (hclosing : IsClosing closing) {d : Digits} (hd : d.IsNumeral)
    (hends : numeralEnds closing rest = true) :
    readScalar closing (d.chars ++ rest) = readNumeral closing (d.chars ++ rest) := by
  obtain ⟨c, ds, hwhole, hc, hchars, -⟩ := chars_cases hd rest
  have hfollow (e : Char) (he : (d.fractionChars ++ (d.exponentChars ++ rest)).head? = some e) :=
    head?_of_fractionChars hclosing (d := d) hends he
  have hall : d.chars ++ rest = d.whole ++ (d.fractionChars ++ (d.exponentChars ++ rest)) := by
    rw [hchars, hwhole, List.cons_append]
  have hdate : looksLikeDate (d.chars ++ rest) = true →
      digitsFirst 4 (d.chars ++ rest) = false := by
    intro hlooks
    unfold looksLikeDate at hlooks
    rw [Bool.and_eq_true, decide_eq_true_iff] at hlooks
    refine Bool.eq_false_iff.mpr fun hfirst => ?_
    rw [hall] at hlooks hfirst
    exact getElem?_ne_of_digitsFirst hd.whole rfl
      (fun e he => ⟨(hfollow e he).1, (hfollow e he).2.1⟩) hfirst hlooks.1
  have htime : looksLikeTime (d.chars ++ rest) = true →
      digitsFirst 2 (d.chars ++ rest) = false := by
    intro hlooks
    unfold looksLikeTime at hlooks
    rw [decide_eq_true_iff] at hlooks
    refine Bool.eq_false_iff.mpr fun hfirst => ?_
    rw [hall] at hlooks hfirst
    exact getElem?_ne_of_digitsFirst hd.whole rfl
      (fun e he => ⟨(hfollow e he).1, (hfollow e he).2.2.1⟩) hfirst hlooks
  unfold readScalar
  split
  · rfl
  · rfl
  · split
    · rename_i hlooks
      rw [hdate hlooks, if_neg (by decide)]
    · split
      · rename_i hlooks
        rw [htime hlooks, if_neg (by decide)]
      · rfl

/-- A sign in front of a numeral: a minus or none. -/
def signed (negative : Bool) (cs : List Char) : List Char := if negative then '-' :: cs else cs

/-- **A numeral is read as the number of its digits.** -/
theorem readScalar_chars (hclosing : IsClosing closing) (negative : Bool) {d : Digits}
    (hd : d.IsNumeral) (hends : numeralEnds closing rest = true) :
    readScalar closing (signed negative d.chars ++ rest) =
      (decimalNumber (signed negative d.chars ++ rest) negative d).map fun n => (n, rest) := by
  cases negative with
  | true =>
    unfold signed
    rw [if_pos rfl, List.cons_append]
    exact readUnsigned_chars hclosing (some '-') hd hends
  | false =>
    unfold signed
    rw [if_neg (by decide), readScalar_chars_unsigned hclosing hd hends]
    obtain ⟨c, ds, -, hc, hchars, -⟩ := chars_cases hd rest
    unfold readNumeral
    split
    · rename_i h
      rw [hchars] at h
      exact absurd (List.cons.inj h).1 (ne_of_isDigit hc rfl)
    · rename_i h
      rw [hchars] at h
      exact absurd (List.cons.inj h).1 (ne_of_isDigit hc rfl)
    · exact readUnsigned_chars hclosing none hd hends

end Bestiary.Toml
