import Bestiary.Json.Reader
import Bestiary.Proofs.Data.Keyed

/-!
# JSON data is well-keyed

Of two entries under one key the later counts, so what is read from JSON has every key once.

* `Data.wellKeyed_ofEntries`: a table made of entries that are well-keyed.
* `Json.wellKeyed_of_read`: what is read.
-/

namespace Bestiary

namespace Data

variable {ε : Type} {entries : List (String × Data ε)}

theorem WellKeyed.setAll {t : Table (Data ε)} (ht : WellKeyed (.table t))
    (h : ∀ e ∈ entries, e.2.WellKeyed) : WellKeyed (.table (t.setAll entries)) := by
  unfold Table.setAll
  induction entries generalizing t with
  | nil => exact ht
  | cons e entries ih =>
    rw [List.forall_mem_cons] at h
    exact ih (ht.set h.1 e.1) h.2

/-- **Entries written in turn make a table without a key twice.** -/
theorem wellKeyed_ofEntries (h : ∀ e ∈ entries, e.2.WellKeyed) :
    WellKeyed (.table (Table.ofEntries entries)) :=
  WellKeyed.setAll (wellKeyed_table_iff.mpr ⟨List.nodup_nil, by simp⟩) h

end Data

namespace Json

variable {cs rest : List Char} {d : Loose} {fuel : Nat}

theorem wellKeyed_of_readMagnitude {negative : Bool}
    (h : readMagnitude negative cs = some (d, rest)) : d.WellKeyed := by
  obtain ⟨⟨whole, rest₁⟩, -, h⟩ := Option.bind_eq_some_iff.mp h
  obtain ⟨⟨fraction, rest₂⟩, -, h⟩ := Option.bind_eq_some_iff.mp h
  obtain ⟨⟨exponent, rest₃⟩, -, h⟩ := Option.bind_eq_some_iff.mp h
  simp only at h
  split at h
  · cases h
    trivial
  · cases h
    trivial

theorem wellKeyed_of_readNumber (h : readNumber cs = some (d, rest)) : d.WellKeyed := by
  unfold readNumber at h
  split at h
  · exact wellKeyed_of_readMagnitude h
  · exact wellKeyed_of_readMagnitude h

/-- With so much fuel, all data that is read is well-keyed, alone, in a list and in entries. -/
structure ReadsKeyed (fuel : Nat) : Prop where
  data : ∀ {cs d rest}, readData fuel cs = some (d, rest) → d.WellKeyed
  items : ∀ {cs items rest}, readItems fuel cs = some (items, rest) → ∀ d ∈ items, d.WellKeyed
  entries : ∀ {cs entries rest}, readEntries fuel cs = some (entries, rest) →
    ∀ e ∈ entries, e.2.WellKeyed

theorem wellKeyed_of_readData_succ (ih : ReadsKeyed fuel)
    (h : readData (fuel + 1) cs = some (d, rest)) : d.WellKeyed := by
  rw [readData] at h
  split at h
  · obtain ⟨⟨s, rest'⟩, -, h⟩ := Option.map_eq_some_iff.mp h
    cases h
    trivial
  · split at h
    · cases h
      trivial
    · obtain ⟨⟨items, rest'⟩, hitems, h⟩ := Option.map_eq_some_iff.mp h
      cases h
      exact Data.wellKeyed_list_iff.mpr (ih.items hitems)
  · split at h
    · cases h
      exact Data.wellKeyed_table_iff.mpr ⟨List.nodup_nil, by simp⟩
    · obtain ⟨⟨entries, rest'⟩, hentries, h⟩ := Option.map_eq_some_iff.mp h
      cases h
      exact Data.wellKeyed_ofEntries (ih.entries hentries)
  · cases h
    trivial
  · cases h
    trivial
  · cases h
    trivial
  · exact wellKeyed_of_readNumber h

theorem wellKeyed_of_readItems_succ (ih : ReadsKeyed fuel) {items : List Loose}
    (h : readItems (fuel + 1) cs = some (items, rest)) : ∀ d ∈ items, d.WellKeyed := by
  rw [readItems] at h
  obtain ⟨⟨item, rest'⟩, hread, h⟩ := Option.bind_eq_some_iff.mp h
  have hitem : item.WellKeyed := ih.data hread
  simp only at h
  split at h
  · obtain ⟨⟨items', rest''⟩, hitems, h⟩ := Option.bind_eq_some_iff.mp h
    cases h
    exact List.forall_mem_cons.mpr ⟨hitem, ih.items hitems⟩
  · cases h
    exact List.forall_mem_singleton.mpr hitem
  · cases h

theorem wellKeyed_of_readEntries_succ (ih : ReadsKeyed fuel) {entries : List (String × Loose)}
    (h : readEntries (fuel + 1) cs = some (entries, rest)) : ∀ e ∈ entries, e.2.WellKeyed := by
  rw [readEntries] at h
  split at h
  · obtain ⟨⟨key, rest'⟩, -, h⟩ := Option.bind_eq_some_iff.mp h
    simp only at h
    split at h
    · obtain ⟨⟨item, rest''⟩, hread, h⟩ := Option.bind_eq_some_iff.mp h
      have hitem : item.WellKeyed := ih.data hread
      simp only at h
      split at h
      · obtain ⟨⟨entries', rest'''⟩, hentries, h⟩ := Option.bind_eq_some_iff.mp h
        cases h
        exact List.forall_mem_cons.mpr ⟨hitem, ih.entries hentries⟩
      · cases h
        exact List.forall_mem_singleton.mpr hitem
      · cases h
    · cases h
  · cases h

theorem readsKeyed (fuel : Nat) : ReadsKeyed fuel := by
  induction fuel with
  | zero =>
    refine ⟨?_, ?_, ?_⟩
    · exact fun h => absurd h (by simp [readData])
    · exact fun h => absurd h (by simp [readItems])
    · exact fun h => absurd h (by simp [readEntries])
  | succ fuel ih =>
    exact ⟨wellKeyed_of_readData_succ ih, wellKeyed_of_readItems_succ ih,
      wellKeyed_of_readEntries_succ ih⟩

/-- **What is read from JSON is well-keyed.** -/
theorem wellKeyed_of_read {text : String} (h : read text = some d) : d.WellKeyed := by
  obtain ⟨⟨d', rest⟩, hread, h⟩ := Option.bind_eq_some_iff.mp h
  simp only at h
  split at h
  · cases h
    exact (readsKeyed _).data hread
  · cases h

end Json

end Bestiary
