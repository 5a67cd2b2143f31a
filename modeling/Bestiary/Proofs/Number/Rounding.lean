import Bestiary.Number.Basic
import Mathlib.Algebra.Order.Ring.Nat
import Mathlib.Tactic.Ring

/-!
# Rounding of quotients

What a quotient rounds to depends on its value alone, and rounding never goes below a number.

* `Number.nearestUnits_congr`: equal quotients round alike.
* `Number.le_nearestUnits`: what is no less than a number of 53 significant bits rounds to no less.
* `Number.isInteger_of_large`: numbers from `2 ^ 53` on are integers.
* `Number.representable_of_safe`: the integers below are numbers.
-/

namespace Bestiary.Number

/-! ## Equal quotients -/

theorem roundedQuotient_mul_right (num den : Nat) {c : Nat} (hc : 0 < c) :
    roundedQuotient (num * c) (den * c) = roundedQuotient num den := by
  unfold roundedQuotient
  rw [Nat.mul_div_mul_right _ _ hc, Nat.mul_mod_mul_right]
  have hlt : 2 * (num % den * c) < den * c ↔ 2 * (num % den) < den := by
    rw [← Nat.mul_assoc, Nat.mul_lt_mul_right hc]
  have heq : 2 * (num % den * c) = den * c ↔ 2 * (num % den) = den := by
    rw [← Nat.mul_assoc, Nat.mul_left_inj hc.ne']
  simp only [hlt, heq]

theorem nearestUnits_mul_right (num den : Nat) {c : Nat} (hc : 0 < c) :
    nearestUnits (num * c) (den * c) = nearestUnits num den := by
  unfold nearestUnits
  simp only [Nat.mul_div_mul_right _ _ hc]
  rw [Nat.mul_right_comm den c, roundedQuotient_mul_right _ _ hc]

/-- **Equal quotients round to the same multiple.** -/
theorem nearestUnits_congr {num den num' den' : Nat} (hd : 0 < den) (hd' : 0 < den')
    (h : num * den' = num' * den) : nearestUnits num den = nearestUnits num' den' := by
  rw [← nearestUnits_mul_right num den hd', h, Nat.mul_comm den den',
    nearestUnits_mul_right num' den' hd]

/-- Equal quotients round to the same number. -/
theorem ofRatio?_congr (negative : Bool) {num den num' den' : Nat} (hd : 0 < den)
    (hd' : 0 < den') (h : num * den' = num' * den) :
    ofRatio? negative num den = ofRatio? negative num' den' := by
  unfold ofRatio?
  rw [nearestUnits_congr hd hd' (by rw [Nat.mul_right_comm, h, Nat.mul_right_comm])]

/-! ## Large numbers -/

/-- Rounding down to 53 significant bits does not go below a power of two. -/
theorem two_pow_log2_le {q : Nat} (hq : q ≠ 0) :
    2 ^ q.log2 ≤ q / 2 ^ excessBits q * 2 ^ excessBits q := by
  have hle : excessBits q ≤ q.log2 := Nat.sub_le _ _
  have hsplit : 2 ^ q.log2 = 2 ^ (q.log2 - excessBits q) * 2 ^ excessBits q := by
    rw [← Nat.pow_add, Nat.sub_add_cancel hle]
  have hdiv : 2 ^ (q.log2 - excessBits q) ≤ q / 2 ^ excessBits q := by
    rw [Nat.le_div_iff_mul_le (Nat.two_pow_pos _), ← hsplit]
    exact Nat.log2_self_le hq
  rw [hsplit]
  exact Nat.mul_le_mul_right _ hdiv

/-- Rounding a quotient does not go below what rounding its floor down gives. -/
theorem floor_le_nearestUnits (num den : Nat) :
    num / den / 2 ^ excessBits (num / den) * 2 ^ excessBits (num / den) ≤ nearestUnits num den := by
  have hfloor : num / den / 2 ^ excessBits (num / den) ≤
      roundedQuotient num (den * 2 ^ excessBits (num / den)) := by
    unfold roundedQuotient
    rw [Nat.div_div_eq_div_mul]
    simp only
    split <;> omega
  exact Nat.mul_le_mul_right _ hfloor

/-- **What is no less than a number of 53 significant bits rounds to no less.** -/
theorem le_nearestUnits {m num den : Nat} (hm : m % 2 ^ excessBits m = 0) (hd : 0 < den)
    (h : m * den ≤ num) : m ≤ nearestUnits num den := by
  have hq : m ≤ num / den := (Nat.le_div_iff_mul_le hd).mpr h
  refine Nat.le_trans ?_ (floor_le_nearestUnits num den)
  generalize num / den = q at hq
  rcases Nat.eq_zero_or_pos m with rfl | hpos
  · exact Nat.zero_le _
  rcases Nat.lt_or_ge m.log2 q.log2 with hlt | hge
  · -- A power of two lies between the two.
    calc m ≤ 2 ^ (m.log2 + 1) := Nat.le_of_lt Nat.lt_log2_self
      _ ≤ 2 ^ q.log2 := Nat.pow_le_pow_right (by decide) hlt
      _ ≤ q / 2 ^ excessBits q * 2 ^ excessBits q := two_pow_log2_le (by omega)
  · have hlog : m.log2 = q.log2 :=
      Nat.le_antisymm ((Nat.le_log2 (by omega)).mpr
        (Nat.le_trans (Nat.log2_self_le hpos.ne') hq)) hge
    have hbits : excessBits m = excessBits q := by rw [excessBits, excessBits, hlog]
    rw [hbits] at hm
    calc m = m / 2 ^ excessBits q * 2 ^ excessBits q :=
          (Nat.div_mul_cancel (Nat.dvd_of_mod_eq_zero hm)).symm
      _ ≤ q / 2 ^ excessBits q * 2 ^ excessBits q :=
          Nat.mul_le_mul_right _ (Nat.div_le_div_right hq)

theorem units_of_ofUnits? {units : Int} {x : Number} (h : ofUnits? units = some x) :
    x.units = units := by
  unfold ofUnits? at h
  split at h
  · rw [← Option.some.inj h]
  · exact absurd h (by simp)

/-- The units of a number that a quotient rounds to. -/
theorem natAbs_units_of_ofRatio? {negative : Bool} {num den : Nat} {x : Number}
    (h : ofRatio? negative num den = some x) :
    x.units.natAbs = nearestUnits (num * unitsPerOne) den := by
  unfold ofRatio? at h
  dsimp only at h
  rw [units_of_ofUnits? h]
  split
  · rw [Int.natAbs_neg, Int.natAbs_natCast]
  · rw [Int.natAbs_natCast]

theorem two_pow_mul_unitsPerOne (m : Nat) : 2 ^ m * unitsPerOne = 2 ^ (m + 1074) := by
  rw [Nat.pow_add, unitsPerOne]

/-- A large number is a multiple of a power of two. -/
theorem two_pow_dvd_of_large {x : Number} {m : Nat} (h : 2 ^ m ≤ x.units.natAbs) :
    2 ^ (m - 52) ∣ x.units.natAbs := by
  have h0 : x.units.natAbs ≠ 0 := (Nat.lt_of_lt_of_le (Nat.two_pow_pos m) h).ne'
  have hlog : m ≤ x.units.natAbs.log2 := (Nat.le_log2 h0).mpr h
  refine Nat.dvd_trans (Nat.pow_dvd_pow 2 ?_) (Nat.dvd_of_mod_eq_zero x.representable.1)
  exact Nat.sub_le_sub_right hlog 52

theorem unitsPerOne_dvd {m : Nat} (h : 1074 ≤ m) : unitsPerOne ∣ 2 ^ m := by
  refine Dvd.intro_left (2 ^ (m - 1074)) ?_
  rw [two_pow_mul_unitsPerOne, Nat.sub_add_cancel h]

/-- **Numbers from `2 ^ 53` on are integers.** -/
theorem isInteger_of_large {x : Number} (h : 2 ^ 53 * unitsPerOne ≤ x.units.natAbs) :
    ∃ i, x.toInt? = some i := by
  rw [two_pow_mul_unitsPerOne] at h
  have hdvd : unitsPerOne ∣ x.units.natAbs :=
    Nat.dvd_trans (unitsPerOne_dvd (by omega)) (two_pow_dvd_of_large h)
  have hmod : x.units % (unitsPerOne : Int) = 0 :=
    Int.emod_eq_zero_of_dvd (Int.natCast_dvd.mpr hdvd)
  refine ⟨x.units / unitsPerOne, ?_⟩
  unfold toInt?
  rw [if_pos hmod]

/-- **The safe integers are numbers.** -/
theorem representable_of_safe {n : Nat} (h : n ≤ largestSafe) :
    Representable (n * unitsPerOne) := by
  have hbits : n * unitsPerOne < 2 ^ 1127 := by
    rw [← two_pow_mul_unitsPerOne 53]
    refine Nat.mul_lt_mul_of_pos_right ?_ (Nat.two_pow_pos 1074)
    unfold largestSafe at h
    omega
  refine ⟨Nat.mod_eq_zero_of_dvd ?_, ?_⟩
  · have hexcess : excessBits (n * unitsPerOne) ≤ 1074 := by
      unfold excessBits
      by_cases h0 : n * unitsPerOne = 0
      · rw [h0]
        decide
      · have := (Nat.log2_lt h0).mpr hbits
        omega
    refine Nat.dvd_trans (Nat.pow_dvd_pow 2 hexcess) ?_
    rw [unitsPerOne]
    exact Nat.dvd_mul_left _ _
  · rw [overflowBound]
    exact Nat.lt_trans hbits (Nat.pow_lt_pow_right (by decide) (by decide))

/-- An integer number is that many times the units of one. -/
theorem units_of_toInt? {x : Number} {i : Int} (h : x.toInt? = some i) :
    x.units = i * unitsPerOne := by
  unfold toInt? at h
  split at h
  · rename_i hmod
    rw [← Option.some.inj h]
    exact (Int.ediv_mul_cancel (Int.dvd_of_emod_eq_zero hmod)).symm
  · exact absurd h (by simp)

end Bestiary.Number
