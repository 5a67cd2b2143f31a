import Bestiary.Proofs.Number.Integer
import Bestiary.Proofs.Toml.Numeral
import Bestiary.Toml.Writer

/-!
# Numbers written and read back

A number is written as a numeral of its value. One without a point and without an exponent is read
as an integer, and integers past the safe ones are refused. `Number.IsLossy` says which numbers that
befalls: the integers past the safe ones, up to the size where numbers are written with an exponent
anyway. With a decimal place, they are read back as well.

* `Number.exists_layout`: the layout of significant digits is a numeral of the same value.
* `spells_text`: what the text of a number is read as.
* `spellsNumber_numberText`: what `numberText` writes is always read back.
-/

namespace Bestiary

namespace Number

open Toml (Digits)

/-- A numeral for the decimal `d` with the significant digits `ds`. -/
structure IsNumeralOf (n : Digits) (ds : List Char) (d : Decimal) : Prop where
  isNumeral : n.IsNumeral
  value : ∃ (m : Nat) (e : Int), n.decimal = ⟨Text.numeral 10 ds * 10 ^ m, e⟩ ∧
    d.place = ds.length + (e + m)

variable {ds : List Char} {d : Decimal}

/-- Positional, with the point behind all digits: an integer. -/
theorem isNumeralOf_whole (h : IsSignificant ds d) {p : Nat} (hp : d.place = p)
    (hlen : ds.length ≤ p) :
    IsNumeralOf { whole := ds ++ List.replicate (p - ds.length) '0' } ds d := by
  obtain ⟨c, more, hds, hc⟩ := h.leading
  refine ⟨⟨?_, ?_, ?_, ?_, ?_⟩, p - ds.length, 0, ?_, ?_⟩
  · exact Text.isDigit_of_mem_append h.digits fun _ => Text.isDigit_of_mem_replicate_zero
  · simp [hds]
  · exact .inr (by simp [hds, hc])
  · exact fun _ hmem => absurd hmem List.not_mem_nil
  · exact fun _ _ hnone => absurd hnone (by simp)
  · simp [Digits.decimal, Text.numeral_append_zeros h.digits]
  · rw [hp]
    push_cast [Nat.cast_sub hlen]
    ring

/-- Positional, with digits behind the point. -/
theorem isNumeralOf_pointed (h : IsSignificant ds d) {p : Nat} (hp : d.place = p) (hpos : 0 < p)
    (hlen : p < ds.length) :
    IsNumeralOf { whole := ds.take p, fraction := ds.drop p } ds d := by
  obtain ⟨c, more, hds, hc⟩ := h.leading
  refine ⟨⟨?_, ?_, ?_, ?_, ?_⟩, 0, -((ds.length - p : Nat) : Int), ?_, ?_⟩
  · exact fun _ hmem => h.digits _ (List.mem_of_mem_take hmem)
  · simp [hds, hpos.ne']
  · refine .inr ?_
    rw [List.head?_take, if_neg hpos.ne', hds, List.head?_cons]
    exact fun heq => hc (Option.some.inj heq)
  · exact fun _ hmem => h.digits _ (List.mem_of_mem_drop hmem)
  · exact fun _ _ hnone => absurd hnone (by simp)
  · simp [Digits.decimal, List.take_append_drop]
  · rw [hp]
    push_cast [Nat.cast_sub hlen.le]
    ring

/-- Positional, with zeros between the point and the digits. -/
theorem isNumeralOf_below (h : IsSignificant ds d) {z : Nat} (hz : d.place = -(z : Int)) :
    IsNumeralOf { whole := ['0'], fraction := List.replicate z '0' ++ ds } ds d := by
  refine ⟨⟨?_, ?_, .inl rfl, ?_, ?_⟩, 0, -((z + ds.length : Nat) : Int), ?_, ?_⟩
  · intro c hc
    rw [List.mem_singleton.mp hc]
    decide
  · exact List.cons_ne_nil _ _
  · exact Text.isDigit_of_mem_append (fun _ => Text.isDigit_of_mem_replicate_zero) h.digits
  · exact fun _ _ hnone => absurd hnone (by simp)
  · have hzeros := Text.numeral_zeros_append h.digits (z + 1)
    rw [List.replicate_succ, List.cons_append] at hzeros
    simp [Digits.decimal, hzeros]
  · rw [hz]
    push_cast
    ring

/-- One digit in front of the point, and an exponent. -/
theorem isNumeralOf_exponent (h : IsSignificant ds d) :
    IsNumeralOf
      { whole := ds.take 1
        fraction := ds.drop 1
        exponent := some (decide (d.place - 1 < 0), Nat.toDigits 10 (d.place - 1).natAbs) }
      ds d := by
  obtain ⟨c, more, hds, hc⟩ := h.leading
  refine ⟨⟨?_, ?_, ?_, ?_, ?_⟩, 0, d.place - ds.length, ?_, ?_⟩
  · exact fun _ hmem => h.digits _ (List.mem_of_mem_take hmem)
  · simp [hds]
  · exact .inr (by simp [hds, hc])
  · exact fun _ hmem => h.digits _ (List.mem_of_mem_drop hmem)
  · intro minus es hsome
    obtain ⟨-, rfl⟩ := Prod.mk.inj (Option.some.inj hsome)
    exact ⟨Nat.toDigits_ne_nil, fun _ => Text.isDigit_of_mem_toDigits⟩
  · have hlen : ds.length = more.length + 1 := by rw [hds, List.length_cons]
    have hshift : (if d.place - 1 < 0 then -((d.place - 1).natAbs : Int)
        else ((d.place - 1).natAbs : Int)) = d.place - 1 := by
      split <;> omega
    unfold Digits.decimal
    rw [List.take_append_drop, Nat.pow_zero, Nat.mul_one]
    simp only [List.length_drop, Decimal.mk.injEq, true_and]
    by_cases hneg : d.place - 1 < 0
    · rw [if_pos hneg] at hshift
      simp only [hneg, decide_true, Text.numeral_toDigits]
      omega
    · rw [if_neg hneg] at hshift
      simp only [hneg, decide_false, Text.numeral_toDigits]
      omega
  · push_cast
    ring

/-- **The layout of significant digits is a numeral of the same value**. It is one without a point
and an exponent iff its point is behind all digits and within the first places. -/
theorem exists_layout (h : IsSignificant ds d) :
    ∃ n : Digits, IsNumeralOf n ds d ∧ n.chars = layout ds d.place ∧
      (n.isInteger = true ↔ ds.length ≤ d.place ∧ d.place ≤ 21) := by
  obtain ⟨c, more, hds, hc⟩ := h.leading
  have hpos : 0 < ds.length := by simp [hds]
  unfold layout
  split
  · rename_i hplace
    obtain ⟨p, hp⟩ : ∃ p : Nat, d.place = p := ⟨d.place.toNat, by omega⟩
    rcases Nat.lt_or_ge p ds.length with hlt | hge
    · refine ⟨_, isNumeralOf_pointed h hp (by omega) hlt, ?_, iff_of_false ?_ (by omega)⟩
      · have hnone : p - ds.length = 0 := by omega
        rw [hp, Int.toNat_natCast, hnone, List.replicate_zero, List.append_nil]
        simp [Digits.chars, Digits.fractionChars, Digits.exponentChars, pointed, hlt.not_ge]
      · simp [Digits.isInteger, hlt]
    · refine ⟨_, isNumeralOf_whole h hp hge, ?_, iff_of_true rfl (by omega)⟩
      have hall : (ds ++ List.replicate (p - ds.length) '0').length = p := by
        rw [List.length_append, List.length_replicate]
        omega
      rw [hp, Int.toNat_natCast, pointed, if_pos hall.le, List.take_of_length_le hall.le]
      simp [Digits.chars, Digits.fractionChars, Digits.exponentChars]
  · split
    · rename_i hplace
      obtain ⟨z, hz⟩ : ∃ z : Nat, d.place = -(z : Int) := ⟨(-d.place).toNat, by omega⟩
      refine ⟨_, isNumeralOf_below h hz, ?_, iff_of_false ?_ (by omega)⟩
      · rw [hz, Int.neg_neg, Int.toNat_natCast]
        simp [Digits.chars, Digits.fractionChars, Digits.exponentChars, hds]
      · simp [Digits.isInteger, hds]
    · refine ⟨_, isNumeralOf_exponent h, ?_, iff_of_false ?_ (by omega)⟩
      · unfold pointed Digits.chars Digits.fractionChars Digits.exponentChars
        simp only [decide_eq_true_eq, List.drop_eq_nil_iff, List.append_assoc]
      · simp [Digits.isInteger]

/-! ## Integers -/

/-- A safe integer is read as the number that its decimal stands for. -/
theorem integer_of_ofDecimal? {negative : Bool} {n : Nat} {x : Number} {start : List Char}
    (h : ofDecimal? negative ⟨n, 0⟩ = some x) (hx : x.units ≠ 0) (hn : n ≤ largestSafe) :
    Toml.integer start negative n = .ok (.number x) := by
  obtain ⟨hn0, hratio⟩ := ofRatio?_of_integer h hx
  have hint : ofInt? (if negative then -(n : Int) else n) = some x := by
    unfold ofInt?
    cases negative with
    | true =>
      have hneg : decide (-(n : Int) < 0) = true := by
        rw [decide_eq_true_iff]
        omega
      rw [if_pos rfl, hneg, Int.natAbs_neg, Int.natAbs_natCast]
      exact hratio
    | false =>
      have hneg : decide ((n : Int) < 0) = false := by
        rw [decide_eq_false_iff_not]
        omega
      rw [if_neg (by decide), hneg, Int.natAbs_natCast]
      exact hratio
  unfold Toml.integer
  rw [if_pos hn, hint]
  rfl

/-- The number is an integer past the safe ones that is written without an exponent. -/
def IsLossy (x : Number) : Prop :=
  ∃ i, x.toInt? = some i ∧ largestSafe < i.natAbs ∧ i.natAbs < Toml.exponentFrom

end Number

namespace Toml

open Number

/-! ## The text of a number -/

/-- The characters are a numeral, with a minus or without, that comes to what `outcome` says. -/
def Spells (cs : List Char) (outcome : (start : List Char) → Except Stop Loose) : Prop :=
  ∃ (negative : Bool) (n : Digits), n.IsNumeral ∧ cs = signed negative n.chars ∧
    ∀ start, decimalNumber start negative n = outcome start

/-- The characters are a numeral that is read as the number. -/
def SpellsNumber (cs : List Char) (x : Number) : Prop := Spells cs fun _ => .ok (.number x)

/-- The characters are a numeral that is refused, since it stands for an integer past the safe
ones. -/
def SpellsLossy (cs : List Char) : Prop := Spells cs fun start => .error ⟨.lossyInteger, start⟩

namespace Spells

variable {cs : List Char} {outcome : (start : List Char) → Except Stop Loose}

/-- A numeral that ends somewhere is read as what it comes to. -/
theorem readScalar_append (h : Spells cs outcome) {closing : Option Char}
    (hclosing : IsClosing closing) {rest : List Char} (hends : numeralEnds closing rest = true) :
    readScalar closing (cs ++ rest) = (outcome (cs ++ rest)).map fun n => (n, rest) := by
  obtain ⟨negative, n, hn, rfl, hnumber⟩ := h
  rw [readScalar_chars hclosing negative hn hends, hnumber]

/-- A numeral starts with a minus or a digit. -/
theorem eq_cons (h : Spells cs outcome) :
    ∃ c tail, cs = c :: tail ∧ (c = '-' ∨ Text.isDigit c = true) := by
  obtain ⟨negative, n, hn, rfl, -⟩ := h
  obtain ⟨c, ds, -, hc, hcs, -⟩ := chars_cases hn []
  rw [List.append_nil] at hcs
  cases negative with
  | true => exact ⟨'-', n.chars, rfl, .inl rfl⟩
  | false => exact ⟨c, _, hcs, .inr hc⟩

end Spells

theorem toList_text {x : Number} (hx : x.units ≠ 0) :
    x.text.toList =
      signed (decide (x.units < 0)) (layout (significant x.shortest) x.shortest.place) := by
  unfold Number.text signed
  rw [if_neg hx, String.toList_ofList]
  simp only [decide_eq_true_eq]

/-- The text of a number other than zero is a numeral of its value. It is one without a point and an
exponent iff the point is behind all significant digits and within the first places. -/
theorem exists_numeral_text {x : Number} (hx : x.units ≠ 0) :
    ∃ n : Digits, n.IsNumeral ∧ x.text.toList = signed (decide (x.units < 0)) n.chars ∧
      ofDecimal? (decide (x.units < 0)) n.decimal = some x ∧
      (n.isInteger = true ↔
        (significant x.shortest).length ≤ x.shortest.place ∧ x.shortest.place ≤ 21) := by
  have hshortest := ofDecimal?_shortest hx
  have hsig := isSignificant (ofRatio?_of_ofDecimal? hshortest hx).1
  obtain ⟨n, ⟨hn, m, e, hdecimal, hplace⟩, hchars, hint⟩ := exists_layout hsig
  refine ⟨n, hn, by rw [toList_text hx, hchars], ?_, hint⟩
  rw [hdecimal, hsig.ofDecimal?_eq _ hplace, hshortest]

theorem decimal_of_isInteger {n : Digits} (h : n.isInteger = true) :
    n.decimal = ⟨Text.numeral 10 n.whole, 0⟩ := by
  unfold Digits.isInteger at h
  rw [Bool.and_eq_true, List.isEmpty_iff, Option.isNone_iff_eq_none] at h
  unfold Digits.decimal
  rw [h.1, h.2, List.append_nil]
  rfl

/-- A number that is written as it is comes back, unless it is an integer past the safe ones whose
point is within the first places. -/
theorem spellsNumber_text {x : Number} (hx : x.units ≠ 0) (hsafe : ¬x.IsLossy) :
    SpellsNumber x.text.toList x := by
  obtain ⟨n, hn, hchars, hvalue, hint⟩ := exists_numeral_text hx
  refine ⟨decide (x.units < 0), n, hn, hchars, fun start => ?_⟩
  unfold decimalNumber
  split
  · rename_i hinteger
    rw [decimal_of_isInteger hinteger] at hvalue
    refine integer_of_ofDecimal? hvalue hx ?_
    -- Past the safe integers the number is an integer of at least 22 digits, which has an exponent.
    by_contra hunsafe
    obtain ⟨i, hi, hlarge⟩ := exists_toInt?_of_unsafe hvalue hx (Nat.lt_of_not_le hunsafe)
    have hpoint : ((21 : Nat) : Int) < x.shortest.place := by
      refine lt_place_shortest ?_
      rw [natAbs_toInt?_mul hi]
      exact Nat.mul_le_mul_right _ (Nat.le_of_not_lt fun hlt => hsafe ⟨i, hi, hlarge, hlt⟩)
    have := (hint.mp hinteger).2
    omega
  · rw [hvalue]

/-- **Such an integer is written as its digits**, and they are refused. -/
theorem spellsLossy_text {x : Number} (h : x.IsLossy) : SpellsLossy x.text.toList := by
  obtain ⟨i, hi, hlarge, hlt⟩ := h
  have hi0 : i ≠ 0 := by
    rintro rfl
    exact absurd hlarge (Nat.not_lt_zero _)
  obtain ⟨d, hexponent, hread, hdigits, hpoint⟩ := exists_whole_of_toInt? hi hi0 hlt
  have hunits := natAbs_toInt?_mul hi
  have hx : x.units ≠ 0 := by
    have := Nat.mul_pos (Int.natAbs_pos.mpr hi0) unitsPerOne_pos
    omega
  have hplace : d.place ≤ 21 := by
    refine place_le_of_lt hread hx ?_
    rw [hunits]
    exact Nat.mul_lt_mul_of_pos_right hlt unitsPerOne_pos
  have hlength : (significant d).length ≤ d.place := by
    obtain ⟨k, -, hk⟩ := (isSignificant (ofRatio?_of_ofDecimal? hread hx).1).zeros
    omega
  obtain ⟨n, hn, hchars, hvalue, hint⟩ := exists_numeral_text hx
  rw [hdigits, hpoint] at hint
  have hinteger := hint.mpr ⟨hlength, hplace⟩
  refine ⟨decide (x.units < 0), n, hn, hchars, fun start => ?_⟩
  rw [decimal_of_isInteger hinteger] at hvalue
  have hunsafe : ¬Text.numeral 10 n.whole ≤ largestSafe := fun hsafe =>
    absurd hlarge (Nat.not_lt.mpr (natAbs_eq_of_safe hvalue hx hsafe hi ▸ hsafe))
  rw [decimalNumber, if_pos hinteger, integer, if_neg hunsafe]

/-- An integer with a decimal place comes back. -/
theorem spellsNumber_integerText {x : Number} {i : Int} (hi : x.toInt? = some i) (hi0 : i ≠ 0)
    (hlt : i.natAbs < exponentFrom) : SpellsNumber (integerText i ++ ".0").toList x := by
  refine ⟨decide (i < 0), ⟨Nat.toDigits 10 i.natAbs, ['0'], none⟩, ⟨?_, ?_, ?_, ?_, ?_⟩, ?_, ?_⟩
  · exact fun _ => Text.isDigit_of_mem_toDigits
  · exact Nat.toDigits_ne_nil
  · exact .inr (Text.head?_toDigits_ne (Int.natAbs_pos.mpr hi0))
  · intro c hc
    rw [List.mem_singleton.mp hc]
    decide
  · exact fun _ _ hnone => absurd hnone (by simp)
  · unfold integerText signed Digits.chars
    rw [String.toList_append, String.toList_ofList]
    by_cases hneg : i < 0 <;> simp [hneg, Digits.fractionChars, Digits.exponentChars]
  · intro start
    have hdecimal : (⟨Nat.toDigits 10 i.natAbs, ['0'], none⟩ : Digits).decimal =
        ⟨i.natAbs * 10 ^ 1, 0 - (1 : Nat)⟩ := by
      have hzeros := Text.numeral_append_zeros
        (fun _ => Text.isDigit_of_mem_toDigits (n := i.natAbs)) 1
      rw [Text.numeral_toDigits] at hzeros
      simp only [Digits.decimal, Decimal.mk.injEq]
      exact ⟨hzeros, rfl⟩
    unfold decimalNumber
    rw [if_neg (by simp [Digits.isInteger]), hdecimal, ofDecimal?_shift,
      ofDecimal?_toInt? hi hi0 hlt]

/-- Zero comes back. -/
theorem spellsNumber_zero {x : Number} (hx : x.units = 0) : SpellsNumber ['0'] x := by
  refine ⟨false, ⟨['0'], [], none⟩, ⟨?_, List.cons_ne_nil _ _, .inl rfl, ?_, ?_⟩, rfl, ?_⟩
  · intro c hc
    rw [List.mem_singleton.mp hc]
    decide
  · exact fun _ hmem => absurd hmem List.not_mem_nil
  · exact fun _ _ hnone => absurd hnone (by simp)
  · intro start
    have hzero : ofInt? 0 = some x := by
      have hunits := ofRatio?_units x Nat.one_pos 0 (by rw [hx, Nat.zero_mul]; rfl)
      rw [hx] at hunits
      exact hunits
    have hinteger : integer start false (Text.numeral 10 ['0']) =
        .ok (.number ((ofInt? 0).getD .zero)) := rfl
    unfold decimalNumber
    rw [if_pos (by rfl), hinteger, hzero]
    rfl

/-- **What a number is written as**: a numeral that is read as it, or one that is refused. -/
theorem spells_text (x : Number) :
    x.IsLossy ∧ SpellsLossy x.text.toList ∨ ¬x.IsLossy ∧ SpellsNumber x.text.toList x := by
  by_cases hlossy : x.IsLossy
  · exact .inl ⟨hlossy, spellsLossy_text hlossy⟩
  · refine .inr ⟨hlossy, ?_⟩
    by_cases hx : x.units = 0
    · have hzero : x.text.toList = ['0'] := by
        rw [Number.text, if_pos hx]
        rfl
      rw [hzero]
      exact spellsNumber_zero hx
    · exact spellsNumber_text hx hlossy

/-- **With a decimal place where it is needed, every number is written as a numeral that is read as
it.** -/
theorem spellsNumber_numberText (x : Number) : SpellsNumber (numberText x).toList x := by
  have htext (h : ¬x.IsLossy) : SpellsNumber x.text.toList x := by
    rcases spells_text x with ⟨hlossy, -⟩ | ⟨-, hspells⟩
    · exact absurd hlossy h
    · exact hspells
  unfold numberText
  split
  · rename_i i hi
    split
    · rename_i hrange
      exact spellsNumber_integerText hi (by omega) hrange.2
    · rename_i hrange
      refine htext fun ⟨j, hj, hlossy⟩ => hrange ?_
      rw [Option.some.inj (hi.symm.trans hj)]
      exact hlossy
  · rename_i hnone
    exact htext fun ⟨j, hj, _⟩ => absurd (hnone.symm.trans hj) (by simp)

end Toml

end Bestiary
