import Bestiary.Data.Narrow
import Bestiary.Proofs.Data.Except
import Bestiary.Proofs.Data.Induction

/-!
# Data without a key twice

Tables are lists of entries; those that stand for data have every key once, at every depth.

* `Data.WellKeyed` says so.
* `Data.WellKeyed.set` and `Data.WellKeyed.erase`: writes to a table and erasures keep it.
* `Loose.wellKeyed_of_narrow`: so does narrowing.
-/

namespace Bestiary

namespace Data

variable {ε δ : Type}

mutual

/-- No table in the data has a key twice. -/
def WellKeyed : Data ε → Prop
  | .list items => ItemsWellKeyed items
  | .table entries => (Table.keys entries).Nodup ∧ EntriesWellKeyed entries
  | _ => True

/-- `WellKeyed` of every item. -/
def ItemsWellKeyed : List (Data ε) → Prop
  | [] => True
  | d :: items => WellKeyed d ∧ ItemsWellKeyed items

/-- `WellKeyed` of what is under every key. -/
def EntriesWellKeyed : List (String × Data ε) → Prop
  | [] => True
  | (_, d) :: entries => WellKeyed d ∧ EntriesWellKeyed entries

end

theorem wellKeyed_list_iff {items : List (Data ε)} :
    WellKeyed (.list items) ↔ ∀ d ∈ items, WellKeyed d := by
  rw [WellKeyed]
  induction items with
  | nil => simp [ItemsWellKeyed]
  | cons d items ih => rw [ItemsWellKeyed, ih, List.forall_mem_cons]

theorem wellKeyed_table_iff {entries : Table (Data ε)} :
    WellKeyed (.table entries) ↔ entries.keys.Nodup ∧ ∀ e ∈ entries, WellKeyed e.2 := by
  have hentries : EntriesWellKeyed entries ↔ ∀ e ∈ entries, WellKeyed e.2 := by
    induction entries with
    | nil => simp [EntriesWellKeyed]
    | cons e entries ih => rw [EntriesWellKeyed, ih, List.forall_mem_cons]
  rw [WellKeyed, hentries]

namespace WellKeyed

variable {entries : Table (Data ε)} {d : Data ε}

/-- What is found under a key is well-keyed. -/
theorem get? (h : WellKeyed (.table entries)) {key : String} (hd : entries.get? key = some d) :
    WellKeyed d :=
  (wellKeyed_table_iff.mp h).2 _ (Table.mem_of_get? hd)

/-- What is written to a key must be well-keyed, then the table is. -/
theorem set (h : WellKeyed (.table entries)) (hd : WellKeyed d) (key : String) :
    WellKeyed (.table (entries.set key d)) := by
  rw [wellKeyed_table_iff] at h ⊢
  refine ⟨Table.nodup_keys_set h.1 key d, ?_⟩
  intro e he
  rcases Table.mem_set he with rfl | he
  · exact hd
  · exact h.2 e he

theorem erase (h : WellKeyed (.table entries)) (key : String) :
    WellKeyed (.table (entries.erase key)) := by
  rw [wellKeyed_table_iff] at h ⊢
  exact ⟨Table.nodup_keys_erase h.1 key, fun e he => h.2 e (List.mem_filter.mp he).1⟩

end WellKeyed

/-- What stands outside the model does not matter. -/
theorem wellKeyed_mapAlien_iff {f : ε → δ} {d : Data ε} :
    (d.mapAlien f).WellKeyed ↔ d.WellKeyed := by
  induction d using Data.induction with
  | list items ih =>
    rw [mapAlien, WellKeyed, WellKeyed]
    induction items with
    | nil => exact Iff.rfl
    | cons d items ihitems =>
      rw [List.forall_mem_cons] at ih
      rw [mapItems, ItemsWellKeyed, ItemsWellKeyed, ih.1, ihitems ih.2]
  | table entries ih =>
    have hparts : (Table.keys (mapEntries f entries)) = entries.keys ∧
        (EntriesWellKeyed (mapEntries f entries) ↔ EntriesWellKeyed entries) := by
      induction entries with
      | nil => exact ⟨rfl, Iff.rfl⟩
      | cons e entries ihentries =>
        rw [List.forall_mem_cons] at ih
        obtain ⟨hkeys, hkeyed⟩ := ihentries ih.2
        rw [mapEntries, EntriesWellKeyed, EntriesWellKeyed, ih.1, hkeyed, Table.keys_cons, hkeys]
        exact ⟨rfl, Iff.rfl⟩
    rw [mapAlien, WellKeyed, WellKeyed, hparts.1, hparts.2]
  | _ => exact Iff.rfl

end Data

namespace Loose

theorem eq_loosen_of_narrowItems {items : List Loose}
    (hitems : ∀ d ∈ items, ∀ place v, narrowAt place d = .ok v → d = v.mapAlien Empty.elim)
    {place : FieldPath} {i : Nat} {vs : List Value} (h : narrowItems place i items = .ok vs) :
    items = Data.mapItems Empty.elim vs := by
  induction items generalizing i vs with
  | nil =>
    cases h
    rfl
  | cons d items ih =>
    rw [List.forall_mem_cons] at hitems
    rw [narrowItems] at h
    obtain ⟨v, hv, h⟩ := Except.bind_eq_ok_iff.mp h
    obtain ⟨rest, hrest, h⟩ := Except.bind_eq_ok_iff.mp h
    cases h
    rw [Data.mapItems, ← hitems.1 _ _ hv, ← ih hitems.2 hrest]

theorem eq_loosen_of_narrowEntries {entries : Table Loose}
    (hentries : ∀ e ∈ entries, ∀ place v, narrowAt place e.2 = .ok v →
      e.2 = v.mapAlien Empty.elim)
    {place : FieldPath} {t : Table Value} (h : narrowEntries place entries = .ok t) :
    entries = Data.mapEntries Empty.elim t := by
  induction entries generalizing t with
  | nil =>
    cases h
    rfl
  | cons e entries ih =>
    obtain ⟨k, d⟩ := e
    rw [List.forall_mem_cons] at hentries
    rw [narrowEntries] at h
    obtain ⟨v, hv, h⟩ := Except.bind_eq_ok_iff.mp h
    obtain ⟨rest, hrest, h⟩ := Except.bind_eq_ok_iff.mp h
    cases h
    rw [Data.mapEntries, ← hentries.1 _ _ hv, ← ih hentries.2 hrest]

/-- What passes narrowing is the value that comes of it. -/
theorem eq_loosen_of_narrowAt {d : Loose} (place : FieldPath) (v : Value)
    (h : narrowAt place d = .ok v) : d = v.mapAlien Empty.elim := by
  induction d using Data.induction generalizing place v with
  | text s =>
    cases h
    rfl
  | number n =>
    cases h
    rfl
  | flag b =>
    cases h
    rfl
  | list items ih =>
    rw [narrowAt] at h
    obtain ⟨vs, hvs, rfl⟩ := Except.map_eq_ok_iff.mp h
    rw [Data.mapAlien, ← eq_loosen_of_narrowItems ih hvs]
  | table entries ih =>
    rw [narrowAt] at h
    obtain ⟨t, ht, rfl⟩ := Except.map_eq_ok_iff.mp h
    rw [Data.mapAlien, ← eq_loosen_of_narrowEntries ih ht]
  | alien e => exact absurd h (by simp [narrowAt])

/-- **Narrowing keeps data well-keyed.** -/
theorem wellKeyed_of_narrow {d : Loose} {v : Value} (h : d.narrow = .ok v) (hd : d.WellKeyed) :
    v.WellKeyed := by
  rw [eq_loosen_of_narrowAt _ _ h] at hd
  exact Data.wellKeyed_mapAlien_iff.mp hd

end Loose

end Bestiary
