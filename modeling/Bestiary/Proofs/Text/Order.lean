import Bestiary.Text.Units
import Mathlib.Data.List.Sort

/-!
# The order of texts

Texts are ordered by their 16-bit units. Different texts have different units, so the order is
linear: texts that tie are equal.

* `units_injective`: a text is determined by its units.
* `notAfter_total`, `notAfter_trans` and `notAfter_antisymm` make the order a linear one.
* `pairwise_before_sort`: texts without repetitions are strictly ascending once sorted.
-/

namespace Bestiary.Text

/-! ## Units determine the text -/

/-- The units of a character determine it, whatever follows. -/
theorem charUnits_append_inj {c d : Char} {r s : List Nat}
    (h : charUnits c ++ r = charUnits d ++ s) : c = d ∧ r = s := by
  have hc := c.valid
  have hd := d.valid
  unfold UInt32.isValidChar Nat.isValidChar at hc hd
  unfold charUnits at h
  rw [← Char.toNat_inj]
  change c.toNat < 0xD800 ∨ 0xDFFF < c.toNat ∧ c.toNat < 0x110000 at hc
  change d.toNat < 0xD800 ∨ 0xDFFF < d.toNat ∧ d.toNat < 0x110000 at hd
  split at h <;> split at h <;>
    simp only [List.cons_append, List.nil_append, List.cons.injEq] at h
  · exact h
  -- A unit of the surrogate range is no character of its own.
  · omega
  · omega
  · obtain ⟨hhigh, hlow, hrest⟩ := h
    exact ⟨by omega, hrest⟩

theorem flatMap_charUnits_injective {cs ds : List Char}
    (h : cs.flatMap charUnits = ds.flatMap charUnits) : cs = ds := by
  induction cs generalizing ds with
  | nil =>
    cases ds with
    | nil => rfl
    | cons d ds =>
      unfold charUnits at h
      rw [List.flatMap_nil, List.flatMap_cons] at h
      split at h <;> exact absurd h (by simp)
  | cons c cs ih =>
    cases ds with
    | nil =>
      unfold charUnits at h
      rw [List.flatMap_nil, List.flatMap_cons] at h
      split at h <;> exact absurd h (by simp)
    | cons d ds =>
      rw [List.flatMap_cons, List.flatMap_cons] at h
      obtain ⟨rfl, hrest⟩ := charUnits_append_inj h
      rw [ih hrest]

/-- **A text is determined by its units.** -/
theorem units_injective {a b : String} (h : units a = units b) : a = b :=
  String.toList_injective (flatMap_charUnits_injective h)

/-! ## The order -/

/-- A text is not after another iff the units of the other do not come first. -/
theorem notAfter_iff {a b : String} : notAfter a b = true ↔ ¬units b < units a := by
  unfold notAfter before
  rw [Bool.not_eq_true', decide_eq_false_iff_not]

theorem notAfter_total (a b : String) : (notAfter a b || notAfter b a) = true := by
  rw [Bool.or_eq_true, notAfter_iff, notAfter_iff]
  exact (List.le_total (units a) (units b)).imp List.not_lt.mpr List.not_lt.mpr

theorem notAfter_trans {a b c : String} (hab : notAfter a b = true) (hbc : notAfter b c = true) :
    notAfter a c = true := by
  rw [notAfter_iff] at hab hbc ⊢
  exact List.not_lt.mpr (List.le_trans (List.not_lt.mp hab) (List.not_lt.mp hbc))

/-- Texts that tie are equal. -/
theorem notAfter_antisymm {a b : String} (hab : notAfter a b = true) (hba : notAfter b a = true) :
    a = b := by
  rw [notAfter_iff] at hab hba
  exact units_injective (List.le_antisymm (List.not_lt.mp hab) (List.not_lt.mp hba))

theorem sort_perm (texts : List String) : (sort texts).Perm texts := List.mergeSort_perm _ _

/-- Different texts that are not the other way round are in order. -/
theorem before_of_notAfter {a b : String} (h : notAfter a b = true) (hne : a ≠ b) :
    before a b = true := by
  by_contra hbefore
  have hafter : notAfter b a = true := by
    unfold notAfter
    rw [Bool.not_eq_true', Bool.eq_false_iff]
    exact hbefore
  exact hne (notAfter_antisymm h hafter)

/-- Sorted texts are strictly ascending if none occurs twice. -/
theorem pairwise_before_sort {texts : List String} (h : texts.Nodup) :
    (sort texts).Pairwise fun a b => before a b = true := by
  have hsorted : (sort texts).Pairwise fun a b => notAfter a b = true := by
    refine List.pairwise_mergeSort ?_ notAfter_total texts
    intro a b c hab hbc
    exact notAfter_trans hab hbc
  have hboth : (sort texts).Pairwise fun a b => notAfter a b = true ∧ a ≠ b :=
    hsorted.and ((sort_perm texts).nodup_iff.mpr h)
  refine hboth.imp ?_
  rintro a b ⟨hle, hne⟩
  exact before_of_notAfter hle hne

end Bestiary.Text
