import Bestiary.Proofs.Data.Except
import Bestiary.Proofs.Data.Table

/-!
# When records can be read

Reading a record succeeds step by step; these lemmas say of each step when it succeeds.
-/

namespace Bestiary

namespace Record

variable {ε α : Type} [HasKind ε] {entries : Table (Data ε)} {d : Data ε}

theorem under_eq_ok_iff {step : Step} {read : Except Issue α} {a : α} :
    under step read = .ok a ↔ read = .ok a :=
  Except.mapError_eq_ok_iff

omit [HasKind ε] in
theorem required_eq_ok_iff {key : String} {read : Data ε → Except Issue α} {a : α} :
    required entries key read = .ok a ↔ ∃ d, entries.get? key = some d ∧ read d = .ok a := by
  unfold required
  cases entries.get? key with
  | none => simp
  | some d => simp [under_eq_ok_iff]

theorem asNumber_eq_ok_iff {n : Number} : asNumber d = .ok n ↔ d = .number n := by
  cases d <;> simp [asNumber]

theorem asText_eq_ok_iff {s : String} : asText d = .ok s ↔ d = .text s := by
  cases d <;> simp [asText]

theorem asList_eq_ok_iff {items : List (Data ε)} : asList d = .ok items ↔ d = .list items := by
  cases d <;> simp [asList]

omit [HasKind ε] in
/-- Every item that was read stands for one of the list. -/
theorem exists_of_mem_readItemsFrom {read : Data ε → Except Issue α} {items : List (Data ε)}
    {i : Nat} {as : List α} (h : readItemsFrom read i items = .ok as) {a : α} (ha : a ∈ as) :
    ∃ d ∈ items, read d = .ok a := by
  induction items generalizing i as with
  | nil =>
    cases h
    exact absurd ha List.not_mem_nil
  | cons d items ih =>
    obtain ⟨b, hb, h⟩ := Except.bind_eq_ok_iff.mp h
    obtain ⟨bs, hbs, h⟩ := Except.bind_eq_ok_iff.mp h
    cases h
    rcases List.mem_cons.mp ha with rfl | ha
    · exact ⟨d, List.mem_cons_self, under_eq_ok_iff.mp hb⟩
    · obtain ⟨d', hd', hread⟩ := ih hbs ha
      exact ⟨d', List.mem_cons_of_mem _ hd', hread⟩

omit [HasKind ε] in
/-- A field that may be absent is read iff it is absent or can be read. -/
theorem optional_eq_ok_iff {key : String} {read : Data ε → Except Issue α} {o : Option α} :
    Record.optional entries key read = .ok o ↔
      (entries.get? key = none ∧ o = none) ∨
        ∃ d a, entries.get? key = some d ∧ read d = .ok a ∧ o = some a := by
  unfold Record.optional
  cases entries.get? key with
  | none => simp [eq_comm]
  | some d =>
    simp only [Except.map_eq_ok_iff, under_eq_ok_iff]
    simp [eq_comm]

/-- Texts are read from a list of texts only. -/
theorem readItems_asText_eq_ok_iff {keys : List String} :
    readItems asText d = .ok keys ↔ d = .texts keys := by
  have hfrom : ∀ (i : Nat) (items : List (Data ε)) (keys : List String),
      readItemsFrom asText i items = .ok keys ↔ items = keys.map .text := by
    intro i items
    induction items generalizing i with
    | nil => intro keys; cases keys <;> simp [readItemsFrom]
    | cons x items ih =>
      intro keys
      simp only [readItemsFrom, Except.bind_eq_ok_iff, under_eq_ok_iff, asText_eq_ok_iff, ih]
      constructor
      · rintro ⟨key, rfl, rest, rfl, h⟩
        cases h
        rfl
      · intro h
        cases keys with
        | nil => exact absurd h (by simp)
        | cons key keys =>
          rw [List.map_cons, List.cons.injEq] at h
          exact ⟨key, h.1, keys, h.2, rfl⟩
  simp only [readItems, Except.bind_eq_ok_iff, asList_eq_ok_iff, hfrom, Data.texts]
  constructor
  · rintro ⟨items, rfl, rfl⟩
    rfl
  · exact fun h => ⟨_, h, rfl⟩

theorem asTable_eq_ok_iff {t : Table (Data ε)} : asTable d = .ok t ↔ d = .table t := by
  cases d <;> simp [asTable]

end Record

end Bestiary
