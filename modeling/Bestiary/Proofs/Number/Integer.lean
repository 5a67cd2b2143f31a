import Bestiary.Proofs.Number.Digits

/-!
# Integers and their digits

An integer is the number that its digits stand for. A run of digits stands for itself up to the
largest safe integer, and for some integer past the safe ones from there on. The digits that are
selected for an integer end in front of its point.

* `Number.ofDecimal?_toInt?` reads the digits of an integer.
* `Number.exists_ofDecimal?_of_safe` and `Number.exists_toInt?_of_unsafe`: runs of digits up to the
  largest safe integer stand for themselves, and longer ones for integers past it.
* `Number.exists_whole_of_toInt?`: an integer below `10 ^ 21` is written like a decimal without
  places behind the point.
-/

namespace Bestiary

namespace Number

/-! ## Reading integers -/

/-- What an integer numeral for a number other than zero rounds. -/
theorem ofRatio?_of_integer {negative : Bool} {n : Nat} {x : Number}
    (h : ofDecimal? negative ⟨n, 0⟩ = some x) (hx : x.units ≠ 0) :
    n ≠ 0 ∧ ofRatio? negative n 1 = some x := by
  obtain ⟨hn, hratio⟩ := ofRatio?_of_ofDecimal? h hx
  refine ⟨hn, ?_⟩
  rw [← hratio]
  simp [Decimal.ratio]

theorem natAbs_toInt?_mul {x : Number} {i : Int} (h : x.toInt? = some i) :
    x.units.natAbs = i.natAbs * unitsPerOne := by
  rw [units_of_toInt? h, Int.natAbs_mul, Int.natAbs_natCast]

theorem two_pow_mod_excessBits (k : Nat) : 2 ^ k % 2 ^ excessBits (2 ^ k) = 0 := by
  refine Nat.mod_eq_zero_of_dvd (Nat.pow_dvd_pow 2 ?_)
  rw [excessBits, Nat.log2_two_pow]
  exact Nat.sub_le k 52

/-- A number that an integer past the safe ones stands for is an integer past the safe ones. -/
theorem exists_toInt?_of_unsafe {negative : Bool} {n : Nat} {x : Number}
    (h : ofDecimal? negative ⟨n, 0⟩ = some x) (hx : x.units ≠ 0) (hn : largestSafe < n) :
    ∃ i, x.toInt? = some i ∧ largestSafe < i.natAbs := by
  obtain ⟨-, hratio⟩ := ofRatio?_of_integer h hx
  have hle : 2 ^ 53 ≤ n := by
    unfold largestSafe at hn
    omega
  have hlarge : 2 ^ 53 * unitsPerOne ≤ x.units.natAbs := by
    rw [natAbs_units_of_ofRatio? hratio, two_pow_mul_unitsPerOne]
    refine le_nearestUnits (two_pow_mod_excessBits _) Nat.one_pos ?_
    rw [Nat.mul_one, ← two_pow_mul_unitsPerOne]
    exact Nat.mul_le_mul_right _ hle
  obtain ⟨i, hi⟩ := isInteger_of_large hlarge
  refine ⟨i, hi, ?_⟩
  rw [natAbs_toInt?_mul hi] at hlarge
  have := Nat.le_of_mul_le_mul_right hlarge unitsPerOne_pos
  unfold largestSafe
  omega

/-- An integer has the sign of its number. -/
theorem units_neg_iff {x : Number} {i : Int} (h : x.toInt? = some i) : x.units < 0 ↔ i < 0 := by
  have hone : (0 : Int) < unitsPerOne := by exact_mod_cast unitsPerOne_pos
  have hmul := Int.mul_lt_mul_right (b := i) (c := 0) hone
  rwa [Int.zero_mul, ← units_of_toInt? h] at hmul

/-- An integer is the number that its digits stand for. -/
theorem ofDecimal?_toInt? {x : Number} {i : Int} (h : x.toInt? = some i) (hi : i ≠ 0)
    (hlt : i.natAbs < 10 ^ 21) : ofDecimal? (decide (i < 0)) ⟨i.natAbs, 0⟩ = some x := by
  have hcount := (digitCount_le_iff (k := 21) (by decide)).mpr hlt
  have hplace : Decimal.place ⟨i.natAbs, 0⟩ = digitCount i.natAbs := by simp [Decimal.place]
  unfold ofDecimal? farthestPlace
  simp only [hplace]
  rw [if_neg (by omega), if_neg (by omega), ← decide_eq_decide.mpr (units_neg_iff h)]
  refine ofRatio?_units x (ratio_pos _) _ ?_
  rw [natAbs_toInt?_mul h]
  simp [Decimal.ratio]

/-- A run of digits up to the largest safe integer stands for no other integer. -/
theorem natAbs_eq_of_safe {negative : Bool} {n : Nat} {x : Number} {i : Int}
    (h : ofDecimal? negative ⟨n, 0⟩ = some x) (hx : x.units ≠ 0) (hn : n ≤ largestSafe)
    (hi : x.toInt? = some i) : i.natAbs = n := by
  obtain ⟨-, hratio⟩ := ofRatio?_of_integer h hx
  have hunits := natAbs_units_of_ofRatio? hratio
  have hexact := nearestUnits_mul (representable_of_safe hn) Nat.one_pos
  rw [Nat.mul_one] at hexact
  rw [natAbs_toInt?_mul hi, hexact] at hunits
  exact Nat.eq_of_mul_eq_mul_right unitsPerOne_pos hunits

/-- **A safe integer is read from its digits as itself.** -/
theorem exists_ofDecimal?_of_safe {n : Nat} (h : n ≤ largestSafe) :
    ∃ x : Number, ofDecimal? false ⟨n, 0⟩ = some x ∧ x.toInt? = some (n : Int) := by
  have hx : toInt? ⟨n * unitsPerOne, by exact_mod_cast representable_of_safe h⟩ =
      some (n : Int) := by
    unfold toInt?
    rw [if_pos (Int.mul_emod_left _ _), Int.mul_ediv_cancel]
    exact_mod_cast unitsPerOne_pos.ne'
  by_cases h0 : n = 0
  · subst h0
    have hzero : zero.units = 0 := rfl
    refine ⟨zero, if_pos (.inl rfl), ?_⟩
    rw [toInt?, hzero, if_pos (Int.zero_emod _), Int.zero_ediv]
    rfl
  · refine ⟨_, ?_, hx⟩
    have hread := ofDecimal?_toInt? hx (by omega) (by unfold largestSafe at h; omega)
    rwa [decide_eq_false (by omega), Int.natAbs_natCast] at hread

/-! ## Writing integers -/

/-- A decimal with its point past the place `m` is no less than `10 ^ m`. -/
theorem ten_pow_mul_le_ratio {d : Decimal} (hd : d.digits ≠ 0) {m : Nat} (h : (m : Int) < d.place) :
    10 ^ m * d.ratio.2 ≤ d.ratio.1 := by
  unfold Decimal.place at h
  have hpos := digitCount_pos d.digits
  have hfirst : 10 ^ (digitCount d.digits - 1) ≤ d.digits :=
    (lt_digitCount_iff (Nat.pos_of_ne_zero hd)).mp (by omega)
  calc 10 ^ m * d.ratio.2 = 10 ^ (m + (-d.exponent).toNat) := by rw [Nat.pow_add, Decimal.ratio]
    _ ≤ 10 ^ (digitCount d.digits - 1 + d.exponent.toNat) :=
        Nat.pow_le_pow_right (by decide) (by omega)
    _ = 10 ^ (digitCount d.digits - 1) * 10 ^ d.exponent.toNat := Nat.pow_add ..
    _ ≤ d.ratio.1 := Nat.mul_le_mul_right _ hfirst

/-- A decimal that is read as a number below `10 ^ 21` has its point within the first places. -/
theorem place_le_of_lt {negative : Bool} {d : Decimal} {x : Number}
    (h : ofDecimal? negative d = some x) (hx : x.units ≠ 0)
    (hlt : x.units.natAbs < 10 ^ 21 * unitsPerOne) : d.place ≤ 21 := by
  obtain ⟨hdigits, hratio⟩ := ofRatio?_of_ofDecimal? h hx
  by_contra hplace
  have hmod : 10 ^ 21 * unitsPerOne % 2 ^ excessBits (10 ^ 21 * unitsPerOne) = 0 := by
    decide +kernel
  have hle : 10 ^ 21 * unitsPerOne ≤ nearestUnits (d.ratio.1 * unitsPerOne) d.ratio.2 := by
    refine le_nearestUnits hmod (ratio_pos d) ?_
    rw [Nat.mul_right_comm]
    exact Nat.mul_le_mul_right _ (ten_pow_mul_le_ratio hdigits (by omega))
  rw [natAbs_units_of_ofRatio? hratio] at hlt
  exact absurd hlt (Nat.not_lt.mpr hle)

variable {x : Number} {i : Int}

/-- On a grid behind its point, an integer is its own neighbour, and the nearer one. -/
theorem neighbours_of_toInt? (hi : x.toInt? = some i) (j : Nat) :
    (neighbours x.units.natAbs unitsPerOne (-(j : Int))).1 = ⟨i.natAbs * 10 ^ j, -(j : Int)⟩ := by
  have hback : (- -(j : Int)).toNat = j := by omega
  have hnone : (-(j : Int)).toNat = 0 := by omega
  have hnum : x.units.natAbs * 10 ^ j = i.natAbs * 10 ^ j * unitsPerOne := by
    rw [natAbs_toInt?_mul hi, Nat.mul_right_comm]
  unfold neighbours
  simp only [hback, hnone, Nat.pow_zero, Nat.mul_one, hnum, Nat.mul_mod_left,
    Nat.mul_div_cancel _ unitsPerOne_pos, Nat.mul_zero, unitsPerOne_pos, true_or, if_true]

theorem exactDecimal_of_toInt? (hi : x.toInt? = some i) :
    x.exactDecimal = ⟨i.natAbs * 10 ^ 1074, -((1074 : Nat) : Int)⟩ := by
  unfold exactDecimal
  rw [natAbs_toInt?_mul hi, Nat.mul_assoc, unitsPerOne, ← Nat.mul_pow]
  rfl

/-- Neighbours stand on their grid. -/
theorem exponent_of_mem_neighbours {num den : Nat} {grid : Int} {d : Decimal}
    (h : d = (neighbours num den grid).1 ∨ d = (neighbours num den grid).2) :
    d.exponent = grid := by
  unfold neighbours at h
  dsimp only at h
  split at h <;> rcases h with rfl | rfl <;> rfl

/-- The selected digits of an integer end in front of its point, or are its own with zeros behind
it. -/
theorem shortest_of_toInt? (hi : x.toInt? = some i) (hi0 : i ≠ 0) (hlt : i.natAbs < 10 ^ 21) :
    0 ≤ x.shortest.exponent ∨ ∃ j : Nat, x.shortest = ⟨i.natAbs * 10 ^ j, 0 - (j : Int)⟩ := by
  rcases shortest_cases x with hexact | ⟨n, hselected⟩
  · rw [exactDecimal_of_toInt? hi] at hexact
    exact .inr ⟨1074, hexact⟩
  · generalize leadingPlace x.units.natAbs unitsPerOne - (n + 1) = grid at hselected
    rcases Int.lt_or_le grid 0 with hneg | hpos
    · obtain ⟨j, rfl⟩ : ∃ j : Nat, grid = -(j : Int) := ⟨grid.natAbs, by omega⟩
      have hread := ofDecimal?_toInt? hi hi0 hlt
      rw [← ofDecimal?_shift _ _ j, Int.zero_sub, ← decide_eq_decide.mpr (units_neg_iff hi)]
        at hread
      unfold readingBack? at hselected
      dsimp only at hselected
      rw [neighbours_of_toInt? hi j, if_pos hread] at hselected
      exact .inr ⟨j, by rw [Int.zero_sub, ← Option.some.inj hselected]⟩
    · rw [exponent_of_mem_neighbours (of_readingBack? hselected).2]
      exact .inl hpos

/-- Zeros at the end are not significant. -/
theorem significant_shift {n : Nat} (hn : 0 < n) (k : Nat) (e e' : Int) :
    significant ⟨n * 10 ^ k, e⟩ = significant ⟨n, e'⟩ := by
  have hzeros : ∀ c ∈ List.replicate k '0', c.isDigit = true := fun c hc => by
    rw [List.eq_of_mem_replicate hc]
    decide
  have hdigits : Nat.toDigits 10 (n * 10 ^ k) = Nat.toDigits 10 n ++ List.replicate k '0' := by
    rw [← Text.toDigits_ofDigitChars_of_pos hn hzeros, Nat.ofDigitChars_replicate_zero,
      Nat.mul_comm]
  unfold significant
  rw [hdigits, List.reverse_append, List.reverse_replicate, List.dropWhile_append_of_pos]
  intro c hc
  rw [List.eq_of_mem_replicate hc]
  rfl

/-- **An integer is written like a decimal without places behind the point** that is read as it. -/
theorem exists_whole_of_toInt? (hi : x.toInt? = some i) (hi0 : i ≠ 0) (hlt : i.natAbs < 10 ^ 21) :
    ∃ d : Decimal, 0 ≤ d.exponent ∧ ofDecimal? (decide (x.units < 0)) d = some x ∧
      significant x.shortest = significant d ∧ x.shortest.place = d.place := by
  have hpos : 0 < i.natAbs := Int.natAbs_pos.mpr hi0
  have hx : x.units ≠ 0 := by
    have hunits := natAbs_toInt?_mul hi
    have := Nat.mul_pos hpos unitsPerOne_pos
    omega
  rcases shortest_of_toInt? hi hi0 hlt with hexponent | ⟨j, hj⟩
  · exact ⟨x.shortest, hexponent, ofDecimal?_shortest hx, rfl, rfl⟩
  · refine ⟨⟨i.natAbs, 0⟩, Int.le_refl 0, ?_, ?_, ?_⟩
    · rw [decide_eq_decide.mpr (units_neg_iff hi)]
      exact ofDecimal?_toInt? hi hi0 hlt
    · rw [hj]
      exact significant_shift hpos j _ _
    · rw [hj, place_shift hpos]

end Number

end Bestiary
