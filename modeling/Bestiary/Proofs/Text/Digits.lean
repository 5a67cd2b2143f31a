import Bestiary.Text.Digits
import Mathlib.Algebra.Order.Ring.Nat

/-!
# Values of digits

A run of decimal digits stands for the number that it is the digits of, a hexadecimal digit for the
number it was written for.

* `Text.numeral_toDigits`: the digits of a number stand for it.
* `Text.toDigits_ofDigitChars`: a run of digits without a zero in front is how its value is written.
* `Text.hexValue?_hexDigit`: a hexadecimal digit has its value.
-/

namespace Bestiary.Text

/-- A character that is a digit has its value in base ten. -/
theorem getD_hexValue?_of_isDigit {c : Char} (h : isDigit c = true) :
    (hexValue? c).getD 0 = c.toNat - '0'.toNat := by
  unfold hexValue?
  rw [if_pos h]
  rfl

theorem foldl_numeral_eq {ds : List Char} (h : ∀ c ∈ ds, isDigit c = true) (n : Nat) :
    ds.foldl (fun n c => 10 * n + (hexValue? c).getD 0) n = Nat.ofDigitChars 10 ds n := by
  induction ds generalizing n with
  | nil => rfl
  | cons c ds ih =>
    rw [List.forall_mem_cons] at h
    rw [List.foldl_cons, getD_hexValue?_of_isDigit h.1, ih h.2, Nat.ofDigitChars_cons]

theorem numeral_eq_ofDigitChars {ds : List Char} (h : ∀ c ∈ ds, isDigit c = true) :
    numeral 10 ds = Nat.ofDigitChars 10 ds 0 :=
  foldl_numeral_eq h 0

theorem isDigit_of_mem_toDigits {n : Nat} {c : Char} (h : c ∈ Nat.toDigits 10 n) :
    isDigit c = true := by
  have hc : c.isDigit = true := Nat.isDigit_of_mem_toDigits (by decide) (by decide) h
  simpa [isDigit, Char.isDigit, Char.le_def] using hc

/-- **The digits of a number stand for it.** -/
@[simp] theorem numeral_toDigits (n : Nat) : numeral 10 (Nat.toDigits 10 n) = n := by
  rw [numeral_eq_ofDigitChars fun _ hc => isDigit_of_mem_toDigits hc, Nat.ofDigitChars_ten_toDigits]

theorem isDigit_of_mem_replicate_zero {k : Nat} {c : Char} (h : c ∈ List.replicate k '0') :
    isDigit c = true := by
  rw [List.eq_of_mem_replicate h]
  decide

theorem isDigit_of_mem_append {xs ys : List Char} (hx : ∀ c ∈ xs, isDigit c = true)
    (hy : ∀ c ∈ ys, isDigit c = true) : ∀ c ∈ xs ++ ys, isDigit c = true := by
  intro c hc
  rcases List.mem_append.mp hc with hc | hc
  · exact hx c hc
  · exact hy c hc

/-- Zeros at the end of a run of digits multiply by ten. -/
theorem numeral_append_zeros {ds : List Char} (h : ∀ c ∈ ds, isDigit c = true) (k : Nat) :
    numeral 10 (ds ++ List.replicate k '0') = numeral 10 ds * 10 ^ k := by
  rw [numeral_eq_ofDigitChars (isDigit_of_mem_append h fun _ => isDigit_of_mem_replicate_zero),
    numeral_eq_ofDigitChars h, Nat.ofDigitChars_append, Nat.ofDigitChars_replicate_zero,
    Nat.mul_comm]

/-- Zeros in front of a run of digits do not count. -/
theorem numeral_zeros_append {ds : List Char} (h : ∀ c ∈ ds, isDigit c = true) (k : Nat) :
    numeral 10 (List.replicate k '0' ++ ds) = numeral 10 ds := by
  rw [numeral_eq_ofDigitChars (isDigit_of_mem_append (fun _ => isDigit_of_mem_replicate_zero) h),
    numeral_eq_ofDigitChars h, Nat.ofDigitChars_append, Nat.ofDigitChars_replicate_zero,
    Nat.mul_zero]

/-- The first digit of a positive number is not a zero. -/
theorem head?_toDigits_ne {n : Nat} (hn : 0 < n) : (Nat.toDigits 10 n).head? ≠ some '0' := by
  induction n using Nat.strongRecOn with
  | _ n ih =>
    rcases Nat.lt_or_ge n 10 with hlt | hge
    · rw [Nat.toDigits_of_lt_base hlt, List.head?_cons, ne_eq, Option.some_inj,
        Nat.digitChar_eq_zero]
      omega
    · rw [Nat.toDigits_of_base_le (by decide) hge, List.head?_append]
      have hhead : (Nat.toDigits 10 (n / 10)).head? ≠ none := by
        rw [ne_eq, List.head?_eq_none_iff]
        exact Nat.toDigits_ne_nil
      have hrest := ih (n / 10) (by omega) (by omega)
      cases h : (Nat.toDigits 10 (n / 10)).head? with
      | none => exact absurd h hhead
      | some c =>
        rw [h] at hrest
        exact hrest

/-! ## How a value is written -/

theorem toNat_sub_lt_of_isDigit {c : Char} (h : c.isDigit = true) : c.toNat - '0'.toNat < 10 := by
  have hbounds := Char.isDigit_iff_toNat.mp h
  have hzero : '0'.toNat = 48 := rfl
  have hnine : '9'.toNat = 57 := rfl
  omega

/-- A digit is written for its value. -/
theorem digitChar_toNat_sub {c : Char} (h : c.isDigit = true) :
    Nat.digitChar (c.toNat - '0'.toNat) = c := by
  have hbounds := Char.isDigit_iff_toNat.mp h
  have hzero : '0'.toNat = 48 := rfl
  apply Char.toNat_inj.mp
  rw [Nat.toNat_digitChar_of_lt_ten (toNat_sub_lt_of_isDigit h)]
  omega

/-- Digits behind those of a positive number go on with them. -/
theorem toDigits_ofDigitChars_of_pos {n : Nat} (hn : 0 < n) {ds : List Char}
    (h : ∀ c ∈ ds, c.isDigit = true) :
    Nat.toDigits 10 (Nat.ofDigitChars 10 ds n) = Nat.toDigits 10 n ++ ds := by
  induction ds generalizing n with
  | nil => rw [Nat.ofDigitChars_nil, List.append_nil]
  | cons c ds ih =>
    rw [List.forall_mem_cons] at h
    have hlt := toNat_sub_lt_of_isDigit h.1
    rw [Nat.ofDigitChars_cons, ih (by omega) h.2, ← Nat.toDigits_append_toDigits (by decide) hn hlt,
      Nat.toDigits_of_lt_base hlt, digitChar_toNat_sub h.1, List.append_assoc]
    rfl

/-- **A run of digits that does not start with a zero is how its value is written.** -/
theorem toDigits_ofDigitChars {c : Char} {ds : List Char} (hc : c ≠ '0')
    (h : ∀ d ∈ c :: ds, d.isDigit = true) :
    Nat.toDigits 10 (Nat.ofDigitChars 10 (c :: ds) 0) = c :: ds := by
  rw [List.forall_mem_cons] at h
  have hlt := toNat_sub_lt_of_isDigit h.1
  have hpos : 0 < c.toNat - '0'.toNat := by
    rw [Nat.pos_iff_ne_zero]
    intro hzero
    have hdigit := digitChar_toNat_sub h.1
    rw [hzero] at hdigit
    exact hc hdigit.symm
  rw [Nat.ofDigitChars_cons, Nat.mul_zero, Nat.zero_add, toDigits_ofDigitChars_of_pos hpos h.2,
    Nat.toDigits_of_lt_base hlt, digitChar_toNat_sub h.1]
  rfl

/-! ## Hexadecimal digits -/

theorem hexValue?_digitChar : ∀ n : Fin 16, hexValue? (Nat.digitChar n) = some n.val := by decide

/-- A hexadecimal digit has its value. -/
theorem hexValue?_hexDigit (n : Nat) : hexValue? (hexDigit n) = some (n % 16) :=
  hexValue?_digitChar ⟨n % 16, Nat.mod_lt _ (by decide)⟩

end Bestiary.Text
