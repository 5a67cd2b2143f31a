import Bestiary.Number.Decimal
import Bestiary.Proofs.Number.Rounding

/-!
# Decimals and the numbers they are read as

The digits that a number is written with read back to it. Where the point stands does not matter,
and zeros at the end of the digits do not either.

* `Number.ofDecimal?_shift`: decimals of one value are read as one number.
* `Number.ofDecimal?_shortest`: the selected digits read back.
* `Number.lt_place_shortest`: numbers from `10 ^ m` on have their point past the place `m`.
-/

namespace Bestiary

/-! ## Counting digits -/

theorem digitCount_le_iff {n k : Nat} (hk : 0 < k) : digitCount n ≤ k ↔ n < 10 ^ k :=
  Nat.length_toDigits_le_iff (by decide) hk

theorem digitCount_pos (n : Nat) : 0 < digitCount n := Nat.length_toDigits_pos

theorem lt_digitCount_iff {n k : Nat} (hn : 0 < n) : k < digitCount n ↔ 10 ^ k ≤ n := by
  rcases Nat.eq_zero_or_pos k with rfl | hk
  · simp only [digitCount_pos, Nat.pow_zero, true_iff]
    exact hn
  · rw [← Nat.not_le, digitCount_le_iff hk, Nat.not_lt]

/-- Each zero at the end is one more digit. -/
theorem digitCount_mul_pow {n : Nat} (hn : 0 < n) (k : Nat) :
    digitCount (n * 10 ^ k) = digitCount n + k := by
  have hcount := digitCount_pos n
  refine Nat.le_antisymm ?_ ?_
  · rw [digitCount_le_iff (by omega), Nat.pow_add]
    exact Nat.mul_lt_mul_of_pos_right ((digitCount_le_iff hcount).mp (Nat.le_refl _))
      (Nat.pow_pos (by decide))
  · have hlast : digitCount n - 1 + k < digitCount (n * 10 ^ k) := by
      rw [lt_digitCount_iff (Nat.mul_pos hn (Nat.pow_pos (by decide))), Nat.pow_add]
      exact Nat.mul_le_mul_right _ ((lt_digitCount_iff hn).mp (by omega))
    omega

namespace Number

/-! ## Decimals of one value -/

theorem place_shift {n : Nat} (hn : 0 < n) (k : Nat) (e : Int) :
    Decimal.place ⟨n * 10 ^ k, e - k⟩ = Decimal.place ⟨n, e⟩ := by
  unfold Decimal.place
  simp only [digitCount_mul_pow hn]
  push_cast
  ring

theorem ratio_pos (d : Decimal) : 0 < d.ratio.2 := Nat.pow_pos (by decide)

/-- The quotients of decimals of one value are equal. -/
theorem ratio_shift (n k : Nat) (e : Int) :
    (Decimal.ratio ⟨n * 10 ^ k, e - k⟩).1 * (Decimal.ratio ⟨n, e⟩).2 =
      (Decimal.ratio ⟨n, e⟩).1 * (Decimal.ratio ⟨n * 10 ^ k, e - k⟩).2 := by
  unfold Decimal.ratio
  simp only [Nat.mul_assoc, ← Nat.pow_add]
  congr 2
  omega

/-- **Decimals of one value are read as one number.** -/
theorem ofDecimal?_shift (negative : Bool) (n k : Nat) (e : Int) :
    ofDecimal? negative ⟨n * 10 ^ k, e - k⟩ = ofDecimal? negative ⟨n, e⟩ := by
  rcases Nat.eq_zero_or_pos n with rfl | hn
  · simp [ofDecimal?]
  · have hzero : n * 10 ^ k = 0 ↔ n = 0 := by simp
    unfold ofDecimal?
    rw [place_shift hn, ofRatio?_congr negative (ratio_pos _) (ratio_pos _) (ratio_shift n k e)]
    simp only [hzero]

/-- What reads as a number other than zero is rounded. -/
theorem ofRatio?_of_ofDecimal? {negative : Bool} {d : Decimal} {x : Number}
    (h : ofDecimal? negative d = some x) (hx : x.units ≠ 0) :
    d.digits ≠ 0 ∧ ofRatio? negative d.ratio.1 d.ratio.2 = some x := by
  unfold ofDecimal? at h
  split at h
  · rw [← Option.some.inj h] at hx
    exact absurd rfl hx
  · rename_i hfar
    split at h
    · exact absurd h (by simp)
    · exact ⟨fun hd => hfar (.inl hd), h⟩

/-! ## The selected digits -/

theorem two_pow_le_ten_pow (k : Nat) : 2 ^ (3 * k) ≤ 10 ^ k := by
  rw [Nat.pow_mul]
  exact Nat.pow_le_pow_left (by decide) k

theorem ten_pow_le_five_pow (k : Nat) : 10 ^ (7 * k) ≤ 5 ^ (11 * k) := by
  rw [Nat.pow_mul, Nat.pow_mul]
  exact Nat.pow_le_pow_left (by decide) k

theorem lt_digitCount_mul_five_pow {n p k : Nat} (hn : 0 < n) (hk : 11 * k ≤ p) :
    7 * k < digitCount (n * 5 ^ p) := by
  rw [lt_digitCount_iff (Nat.mul_pos hn (Nat.pow_pos (by decide)))]
  calc 10 ^ (7 * k) ≤ 5 ^ (11 * k) := ten_pow_le_five_pow k
    _ ≤ 5 ^ p := Nat.pow_le_pow_right (by decide) hk
    _ ≤ n * 5 ^ p := Nat.le_mul_of_pos_left _ hn

theorem digitCount_mul_five_pow_le {n p k : Nat} (hk : 0 < k) (h : n < 2 ^ (3 * k + p)) :
    digitCount (n * 5 ^ p) ≤ k + p := by
  rw [digitCount_le_iff (by omega)]
  calc n * 5 ^ p < 2 ^ (3 * k + p) * 5 ^ p :=
        Nat.mul_lt_mul_of_pos_right h (Nat.pow_pos (by decide))
    _ = 2 ^ (3 * k) * 10 ^ p := by rw [Nat.pow_add, Nat.mul_assoc, ← Nat.mul_pow]
    _ ≤ 10 ^ k * 10 ^ p := Nat.mul_le_mul_right _ (two_pow_le_ten_pow k)
    _ = 10 ^ (k + p) := (Nat.pow_add 10 k p).symm

theorem lt_two_pow_of_representable {n m : Nat} (h : Representable n) (hm : widest ≤ m) :
    n < 2 ^ m :=
  Nat.lt_of_lt_of_le h.2 (Nat.pow_le_pow_right (by decide) hm)

/-- A power of two times that of five is one of ten. -/
theorem mul_five_pow_mul_two_pow (n p : Nat) :
    n * 5 ^ p * 10 ^ (-(p : Int)).toNat * 2 ^ p = n * 10 ^ (- -(p : Int)).toNat := by
  have hnone : (-(p : Int)).toNat = 0 := by omega
  have hall : (- -(p : Int)).toNat = p := by omega
  rw [hnone, hall, Nat.pow_zero, Nat.mul_one, Nat.mul_assoc, ← Nat.mul_pow]

theorem mul_five_pow_ne_zero {n : Nat} (hn : 0 < n) (p : Nat) : n * 5 ^ p ≠ 0 :=
  (Nat.mul_pos hn (Nat.pow_pos (by decide))).ne'

theorem place_exactDecimal (x : Number) :
    x.exactDecimal.place = (digitCount (x.units.natAbs * 5 ^ 1074) : Int) + -1074 := by
  unfold exactDecimal Decimal.place
  rfl

/-- The exact value reads back. -/
theorem ofDecimal?_exactDecimal {x : Number} (hx : x.units ≠ 0) :
    ofDecimal? (decide (x.units < 0)) x.exactDecimal = some x := by
  have hn : 0 < x.units.natAbs := Int.natAbs_pos.mpr hx
  have hlow := lt_digitCount_mul_five_pow (p := 1074) (k := 97) hn (by decide)
  have hhigh := digitCount_mul_five_pow_le (p := 1074) (k := 342) (by decide)
    (lt_two_pow_of_representable x.representable (by decide))
  have hdigits : x.exactDecimal.digits ≠ 0 := by
    unfold exactDecimal
    exact mul_five_pow_ne_zero hn 1074
  have hplace := place_exactDecimal x
  unfold ofDecimal? farthestPlace
  rw [if_neg (by omega), if_neg (by omega)]
  refine ofRatio?_units x (ratio_pos _) _ ?_
  unfold exactDecimal Decimal.ratio unitsPerOne
  exact mul_five_pow_mul_two_pow _ 1074

/-- What is selected of two decimals is one of them, and reads back. -/
theorem of_readingBack? {x : Number} {pair : Decimal × Decimal} {d : Decimal}
    (h : readingBack? x pair = some d) :
    ofDecimal? (decide (x.units < 0)) d = some x ∧ (d = pair.1 ∨ d = pair.2) := by
  unfold readingBack? at h
  dsimp only at h
  split at h
  · rename_i hread
    obtain rfl := Option.some.inj h
    exact ⟨hread, .inl rfl⟩
  · split at h
    · rename_i hread
      obtain rfl := Option.some.inj h
      exact ⟨hread, .inr rfl⟩
    · exact absurd h (by simp)

/-- The digits are selected from the neighbours on some grid, or are those of the exact value. -/
theorem shortest_cases (x : Number) :
    x.shortest = x.exactDecimal ∨
      ∃ n : Nat, readingBack? x (neighbours x.units.natAbs unitsPerOne
        (leadingPlace x.units.natAbs unitsPerOne - (n + 1))) = some x.shortest := by
  unfold shortest
  dsimp only
  cases hfound : (List.range 17).findSome? fun (n : Nat) =>
      readingBack? x (neighbours x.units.natAbs unitsPerOne
        (leadingPlace x.units.natAbs unitsPerOne - (n + 1))) with
  | none => exact .inl rfl
  | some d =>
    obtain ⟨n, -, hn⟩ := List.exists_of_findSome?_eq_some hfound
    exact .inr ⟨n, hn⟩

/-- **The selected digits read back.** -/
theorem ofDecimal?_shortest {x : Number} (hx : x.units ≠ 0) :
    ofDecimal? (decide (x.units < 0)) x.shortest = some x := by
  rcases shortest_cases x with h | ⟨n, h⟩
  · rw [h]
    exact ofDecimal?_exactDecimal hx
  · exact (of_readingBack? h).1

/-! ## Where the point of a large number stands -/

/-- A decimal next to a quotient has its point no further left than the quotient. -/
theorem leadingPlace_le_place {num den : Nat} (hd : 0 < den) (hle : den ≤ num) (n : Nat)
    {d : Decimal} {pair : Decimal × Decimal}
    (hpair : neighbours num den (leadingPlace num den - (n + 1)) = pair)
    (hmem : d = pair.1 ∨ d = pair.2) : leadingPlace num den ≤ d.place := by
  have hk : leadingPlace num den = digitCount (num / den) := if_pos hle
  generalize leadingPlace num den = k at hk hpair ⊢
  have hpos : 0 < num / den := Nat.div_pos hle hd
  have hcount := digitCount_pos (num / den)
  have hfirst : 10 ^ (digitCount (num / den) - 1) * den ≤ num := by
    rw [← Nat.le_div_iff_mul_le hd, ← lt_digitCount_iff hpos]
    omega
  -- The digits in front of the grid are those of the quotient with `n` more of them.
  have hfloor : 10 ^ n ≤ num * 10 ^ (-(k - (n + 1))).toNat / (den * 10 ^ (k - (n + 1)).toNat) := by
    rw [Nat.le_div_iff_mul_le (Nat.mul_pos hd (Nat.pow_pos (by decide)))]
    have hexp : n + (k - (n + 1)).toNat =
        digitCount (num / den) - 1 + (-(k - (n + 1))).toNat := by omega
    calc 10 ^ n * (den * 10 ^ (k - (n + 1)).toNat)
        = 10 ^ (n + (k - (n + 1)).toNat) * den := by rw [Nat.pow_add]; ring
      _ = 10 ^ (digitCount (num / den) - 1) * den * 10 ^ (-(k - (n + 1))).toNat := by
          rw [hexp, Nat.pow_add]; ring
      _ ≤ num * 10 ^ (-(k - (n + 1))).toNat := Nat.mul_le_mul_right _ hfirst
  have hplace : ∀ q : Nat, 10 ^ n ≤ q → k ≤ Decimal.place ⟨q, k - (n + 1)⟩ := by
    intro q hq
    have hqpos : 0 < q := Nat.lt_of_lt_of_le (Nat.pow_pos (by decide)) hq
    have hdigits := (lt_digitCount_iff hqpos).mpr hq
    unfold Decimal.place
    simp only
    omega
  unfold neighbours at hpair
  dsimp only at hpair
  split at hpair
  · subst hpair
    rcases hmem with rfl | rfl
    · exact hplace _ hfloor
    · exact hplace _ (Nat.le_succ_of_le hfloor)
  · subst hpair
    rcases hmem with rfl | rfl
    · exact hplace _ (Nat.le_succ_of_le hfloor)
    · exact hplace _ hfloor

theorem unitsPerOne_pos : 0 < unitsPerOne := Nat.pow_pos (by decide)

theorem lt_place_exactDecimal {x : Number} {m : Nat}
    (h : 10 ^ m * unitsPerOne ≤ x.units.natAbs) : (m : Int) < x.exactDecimal.place := by
  have hn : 0 < x.units.natAbs :=
    Nat.lt_of_lt_of_le (Nat.mul_pos (Nat.pow_pos (by decide)) unitsPerOne_pos) h
  have hcount : m + 1074 < digitCount (x.units.natAbs * 5 ^ 1074) := by
    rw [lt_digitCount_iff (Nat.pos_of_ne_zero (mul_five_pow_ne_zero hn 1074))]
    calc 10 ^ (m + 1074) = 10 ^ m * unitsPerOne * 5 ^ 1074 := by
          rw [Nat.pow_add, Nat.mul_assoc, unitsPerOne, ← Nat.mul_pow]
      _ ≤ x.units.natAbs * 5 ^ 1074 := Nat.mul_le_mul_right _ h
  have hplace := place_exactDecimal x
  omega

/-- **Numbers from `10 ^ m` on have their point past the place `m`.** -/
theorem lt_place_shortest {x : Number} {m : Nat}
    (h : 10 ^ m * unitsPerOne ≤ x.units.natAbs) : (m : Int) < x.shortest.place := by
  have hle : unitsPerOne ≤ x.units.natAbs :=
    Nat.le_trans (Nat.le_mul_of_pos_left _ (Nat.pow_pos (by decide))) h
  have hleading : (m : Int) < leadingPlace x.units.natAbs unitsPerOne := by
    unfold leadingPlace
    rw [if_pos hle]
    have hlt := (lt_digitCount_iff (Nat.div_pos hle unitsPerOne_pos)).mpr
      ((Nat.le_div_iff_mul_le unitsPerOne_pos).mpr h)
    exact_mod_cast hlt
  rcases shortest_cases x with hexact | ⟨n, hselected⟩
  · rw [hexact]
    exact lt_place_exactDecimal h
  · exact Int.lt_of_lt_of_le hleading
      (leadingPlace_le_place unitsPerOne_pos hle n rfl (of_readingBack? hselected).2)

end Number

end Bestiary
