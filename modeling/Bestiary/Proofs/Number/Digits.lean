import Bestiary.Proofs.Number.Decimal
import Bestiary.Proofs.Text.Digits

/-!
# Significant digits

What is written of a decimal are its digits without the zeros at the end, which only move the point.

* `Number.IsSignificant.ofDecimal?_eq`: what they are read as depends on the place of the point.
* `Number.exists_eq_significant_append`: a decimal has its significant digits and then zeros.
* `Number.not_mem_layout` says which characters are not in a number that is laid out.
-/

namespace Bestiary

namespace Number

/-- A decimal has its significant digits and then zeros. -/
theorem exists_eq_significant_append (d : Decimal) :
    ∃ k, Nat.toDigits 10 d.digits = significant d ++ List.replicate k '0' := by
  have hsplit := List.takeWhile_append_dropWhile (p := fun c : Char => decide (c = '0'))
    (l := (Nat.toDigits 10 d.digits).reverse)
  refine ⟨((Nat.toDigits 10 d.digits).reverse.takeWhile (· = '0')).length, ?_⟩
  have hzeros : ((Nat.toDigits 10 d.digits).reverse.takeWhile (· = '0')).reverse =
      List.replicate ((Nat.toDigits 10 d.digits).reverse.takeWhile (· = '0')).length '0' := by
    rw [List.eq_replicate_iff, List.length_reverse]
    refine ⟨rfl, fun c hc => ?_⟩
    exact of_decide_eq_true (List.all_eq_true.mp List.all_takeWhile c (List.mem_reverse.mp hc))
  rw [← hzeros, significant, ← List.reverse_append, hsplit, List.reverse_reverse]

/-- What the significant digits of a decimal that is not zero are: a run of digits that does not
start with a zero, and with zeros behind it the digits of the decimal. -/
structure IsSignificant (ds : List Char) (d : Decimal) : Prop where
  digits : ∀ c ∈ ds, Text.isDigit c = true
  leading : ∃ c rest, ds = c :: rest ∧ c ≠ '0'
  zeros : ∃ k : Nat, d.digits = Text.numeral 10 ds * 10 ^ k ∧ d.place = ds.length + (d.exponent + k)

theorem isSignificant {d : Decimal} (hd : d.digits ≠ 0) : IsSignificant (significant d) d := by
  obtain ⟨k, hk⟩ := exists_eq_significant_append d
  have hdigits : ∀ c ∈ significant d, Text.isDigit c = true := by
    intro c hc
    exact Text.isDigit_of_mem_toDigits (hk ▸ List.mem_append_left _ hc)
  have hhead := Text.head?_toDigits_ne (Nat.pos_of_ne_zero hd)
  refine ⟨hdigits, ?_, k, ?_, ?_⟩
  · rw [hk] at hhead
    cases hs : significant d with
    | nil =>
      rw [hs, List.nil_append] at hk hhead
      cases k with
      | zero => exact absurd hk Nat.toDigits_ne_nil
      | succ k => exact absurd rfl hhead
    | cons c rest =>
      rw [hs] at hhead
      refine ⟨c, rest, rfl, ?_⟩
      rintro rfl
      exact hhead rfl
  · rw [← Text.numeral_append_zeros hdigits, ← hk, Text.numeral_toDigits]
  · unfold Decimal.place digitCount
    rw [hk, List.length_append, List.length_replicate]
    push_cast
    ring

/-- **The value of a decimal by its significant digits**: all decimals with these digits and the
point at the same place are read as the same number. -/
theorem IsSignificant.ofDecimal?_eq {ds : List Char} {d : Decimal} (h : IsSignificant ds d)
    (negative : Bool) {m : Nat} {e : Int} (he : d.place = ds.length + (e + m)) :
    ofDecimal? negative ⟨Text.numeral 10 ds * 10 ^ m, e⟩ = ofDecimal? negative d := by
  obtain ⟨k, hk, hplace⟩ := h.zeros
  have hd : d = ⟨Text.numeral 10 ds * 10 ^ k, d.exponent + k - k⟩ := by
    rw [← hk, Int.add_sub_cancel]
  have hm : e = d.exponent + k - m := by omega
  rw [hd, ofDecimal?_shift, hm, ofDecimal?_shift]

/-- Digits are laid out with signs, a point and an exponent at most. -/
theorem not_mem_layout {c : Char} {digits : List Char} (hc : Text.isDigit c = false)
    (hmarks : c ∉ ['.', 'e', '+', '-']) (hdigits : c ∉ digits) (place : Int) :
    c ∉ layout digits place := by
  have hzero : c ≠ '0' := by
    rintro rfl
    exact absurd hc (by decide)
  have hnumeral : ∀ n, c ∉ Nat.toDigits 10 n := fun n h =>
    absurd (Text.isDigit_of_mem_toDigits h) (by simp [hc])
  simp only [List.mem_cons, List.not_mem_nil, or_false, not_or] at hmarks
  obtain ⟨hpoint, he, hplus, hminus⟩ := hmarks
  have hpointed : ∀ ds : List Char, c ∉ ds → ∀ n, c ∉ pointed ds n := by
    intro ds hds n hmem
    rw [pointed, List.mem_append] at hmem
    rcases hmem with hmem | hmem
    · exact hds (List.mem_of_mem_take hmem)
    · split at hmem
      · cases hmem
      · rcases List.mem_cons.mp hmem with rfl | hmem
        · exact hpoint rfl
        · exact hds (List.mem_of_mem_drop hmem)
  unfold layout
  split_ifs
  · exact hpointed _ (by simp [hdigits, hzero]) _
  · simp [hzero, hpoint, hdigits]
  · simp [hpointed _ hdigits, he, hminus, hnumeral]
  · simp [hpointed _ hdigits, he, hplus, hnumeral]

end Number

end Bestiary
