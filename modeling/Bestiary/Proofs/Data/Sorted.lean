import Bestiary.Proofs.Data.Lookup
import Bestiary.Proofs.Text.Order

/-!
# Values with their keys sorted

Every value has one form with the keys of its tables sorted, at every depth. Two values are the same
up to the order of keys iff these forms are identical.

* `Table.sortKeys_eq_iff`: sorted tables are identical iff they have the same under each key.
* `Value.sortKeys` sorts the keys of a value, at every depth. `Value.same_sortKeys`: it gives the
  same value; `Value.sortKeys_eq_of_same`: values that are the same have one sorted form.
* `Value.agree_at?`: what is the same has the same at each path.
* `Value.same_equality` collects what makes being the same an equality.
-/

namespace Bestiary

namespace Table

variable {α β : Type}

/-- The entries in the order of their keys. -/
def sortKeys (t : Table α) : Table α := t.mergeSort fun e e' => Text.notAfter e.1 e'.1

theorem sortKeys_perm (t : Table α) : t.sortKeys.Perm t := List.mergeSort_perm _ _

theorem pairwise_sortKeys (t : Table α) :
    t.sortKeys.Pairwise fun e e' => Text.notAfter e.1 e'.1 = true := by
  refine List.pairwise_mergeSort ?_ ?_ t
  · exact fun _ _ _ => Text.notAfter_trans
  · exact fun e e' => Text.notAfter_total e.1 e'.1

/-- Tables with the same entries have the same under each key. -/
theorem get?_eq_of_perm {t u : Table α} (ht : t.keys.Nodup) (h : t.Perm u) (key : String) :
    t.get? key = u.get? key := by
  have hu : u.keys.Nodup := (h.map Prod.fst).nodup_iff.mp ht
  cases hv : t.get? key with
  | some v => exact (get?_of_mem hu (h.mem_iff.mp (mem_of_get? hv))).symm
  | none =>
    rw [get?_eq_none_iff, keys, (h.map Prod.fst).mem_iff, ← keys, ← get?_eq_none_iff] at hv
    exact hv.symm

/-- Tables with the same under each key have the same entries. -/
theorem perm_of_get?_eq {t u : Table α} (ht : t.keys.Nodup) (hu : u.keys.Nodup)
    (h : ∀ key, t.get? key = u.get? key) : t.Perm u := by
  refine (List.perm_ext_iff_of_nodup (List.Nodup.of_map _ ht) (List.Nodup.of_map _ hu)).mpr ?_
  rintro ⟨key, v⟩
  constructor
  · intro he
    exact mem_of_get? ((h key).symm.trans (get?_of_mem ht he))
  · intro he
    exact mem_of_get? ((h key).trans (get?_of_mem hu he))

/-- **Tables are identical once sorted** iff they have the same under each key. -/
theorem sortKeys_eq_iff {t u : Table α} (ht : t.keys.Nodup) (hu : u.keys.Nodup) :
    t.sortKeys = u.sortKeys ↔ ∀ key, t.get? key = u.get? key := by
  constructor
  · intro h
    have hperm : t.Perm u := t.sortKeys_perm.symm.trans (h ▸ u.sortKeys_perm)
    exact get?_eq_of_perm ht hperm
  · intro h
    have hperm := (t.sortKeys_perm.trans (perm_of_get?_eq ht hu h)).trans u.sortKeys_perm.symm
    refine hperm.eq_of_pairwise (fun e e' he he' hle hge => ?_) t.pairwise_sortKeys
      u.pairwise_sortKeys
    have hmem := t.sortKeys_perm.mem_iff.mp he
    have hmem' := t.sortKeys_perm.mem_iff.mp (hperm.mem_iff.mpr he')
    exact List.inj_on_of_nodup_map ht hmem hmem' (Text.notAfter_antisymm hle hge)

/-- The table with `f` done to what is under each key. -/
def mapValues (t : Table α) (f : α → β) : Table β := t.map fun e => (e.1, f e.2)

theorem keys_mapValues (t : Table α) (f : α → β) : (t.mapValues f).keys = t.keys := List.map_map

theorem get?_mapValues (t : Table α) (f : α → β) (key : String) :
    (t.mapValues f).get? key = (t.get? key).map f := by
  induction t with
  | nil => rfl
  | cons e t ih =>
    obtain ⟨k, v⟩ := e
    have hcons : mapValues ((k, v) :: t) f = (k, f v) :: mapValues t f := rfl
    rw [hcons, get?_cons, get?_cons, ih]
    split <;> rfl

end Table

namespace Value

mutual

/-- The value with the keys of each of its tables sorted. -/
def sortKeys : Value → Value
  | .list items => .list (sortItems items)
  | .table entries => .table (Table.sortKeys (sortEntries entries))
  | v => v

/-- `sortKeys` of every item. -/
def sortItems : List Value → List Value
  | [] => []
  | v :: items => sortKeys v :: sortItems items

/-- `sortKeys` of what is under every key. -/
def sortEntries : List (String × Value) → List (String × Value)
  | [] => []
  | (k, v) :: entries => (k, sortKeys v) :: sortEntries entries

end

theorem sortItems_eq (items : List Value) : sortItems items = items.map sortKeys := by
  induction items with
  | nil => rfl
  | cons v items ih => rw [sortItems, ih, List.map_cons]

theorem sortEntries_eq (entries : Table Value) :
    sortEntries entries = entries.mapValues sortKeys := by
  induction entries with
  | nil => rfl
  | cons e entries ih => rw [sortEntries, ih, Table.mapValues, Table.mapValues, List.map_cons]

theorem sortKeys_list (items : List Value) :
    sortKeys (.list items) = .list (items.map sortKeys) := by rw [sortKeys, sortItems_eq]

theorem sortKeys_table (t : Table Value) :
    sortKeys (.table t) = .table (t.mapValues sortKeys).sortKeys := by
  rw [sortKeys, sortEntries_eq]

/-- A value without keys is what it is. -/
theorem sortKeys_leaf {v : Value} (hlist : v.list? = none) (htable : v.table? = none) :
    v.sortKeys = v := by
  cases v with
  | list items => exact absurd hlist (by simp [Data.list?])
  | table t => exact absurd htable (by simp [Data.table?])
  | _ => rw [sortKeys] <;> simp

/-! ## Values and their sorted forms -/

theorem nodup_keys_sortKeys {t : Table Value} (ht : t.keys.Nodup) :
    (Table.keys (t.mapValues sortKeys).sortKeys).Nodup := by
  rw [Table.keys, ((Table.sortKeys_perm _).map Prod.fst).nodup_iff, ← Table.keys,
    Table.keys_mapValues]
  exact ht

/-- Sorted tables have under each key what was there, sorted. -/
theorem get?_sortKeys {t : Table Value} (ht : t.keys.Nodup) (key : String) :
    (t.mapValues sortKeys).sortKeys.get? key = (t.get? key).map sortKeys := by
  rw [Table.get?_eq_of_perm (nodup_keys_sortKeys ht) (Table.sortKeys_perm _),
    Table.get?_mapValues]

theorem wellKeyed_sortKeys {v : Value} (hv : v.WellKeyed) : v.sortKeys.WellKeyed := by
  induction v using Data.induction with
  | list items ih =>
    rw [Data.wellKeyed_list_iff] at hv
    rw [sortKeys_list, Data.wellKeyed_list_iff, List.forall_mem_map]
    exact fun v hmem => ih v hmem (hv v hmem)
  | table t ih =>
    rw [Data.wellKeyed_table_iff] at hv
    rw [sortKeys_table, Data.wellKeyed_table_iff]
    refine ⟨nodup_keys_sortKeys hv.1, fun e he => ?_⟩
    obtain ⟨e', he', rfl⟩ := List.mem_map.mp ((Table.sortKeys_perm _).mem_iff.mp he)
    exact ih e' he' (hv.2 e' he')
  | alien e => exact e.elim
  | _ =>
    rw [sortKeys_leaf rfl rfl]
    exact hv

/-- **A value is the same as its sorted form.** -/
theorem same_sortKeys {v : Value} (hv : v.WellKeyed) : same v v.sortKeys = true := by
  induction v using Data.induction with
  | list items ih =>
    rw [Data.wellKeyed_list_iff] at hv
    rw [sortKeys_list, same, sameItems_iff, List.forall₂_map_right_iff, List.forall₂_same]
    exact fun v hmem => ih v hmem (hv v hmem)
  | table t ih =>
    have hn := (Data.wellKeyed_table_iff.mp hv).1
    rw [sortKeys_table, same_table_iff]
    refine ⟨?_, fun e he => ?_⟩
    · rw [(Table.sortKeys_perm _).length_eq, Table.mapValues, List.length_map]
    · have hget := Table.get?_of_mem hn he
      refine ⟨e.2.sortKeys, ?_, ih e he (hv.get? hget)⟩
      rw [get?_sortKeys hn, hget, Option.map_some]
  | alien e => exact e.elim
  | _ =>
    rw [sortKeys_leaf rfl rfl]
    exact same_refl hv

/-- **Values that are the same have one sorted form.** -/
theorem sortKeys_eq_of_same {v w : Value} (hv : v.WellKeyed) (hw : w.WellKeyed)
    (h : same v w = true) : v.sortKeys = w.sortKeys := by
  induction v using Data.induction generalizing w with
  | list items ih =>
    obtain ⟨items', rfl, hitems⟩ := exists_of_list_same h
    rw [Data.wellKeyed_list_iff] at hv hw
    rw [sortKeys_list, sortKeys_list, Data.list.injEq]
    clear h
    induction hitems with
    | nil => rfl
    | cons hab _ ihitems =>
      rw [List.forall_mem_cons] at hv hw ih
      rw [List.map_cons, List.map_cons, ih.1 hv.1 hw.1 hab, ihitems ih.2 hv.2 hw.2]
  | table t ih =>
    obtain ⟨u, rfl⟩ := exists_of_table_same h
    have ht := (Data.wellKeyed_table_iff.mp hv).1
    have hu := (Data.wellKeyed_table_iff.mp hw).1
    rw [sortKeys_table, sortKeys_table, Data.table.injEq, Table.sortKeys_eq_iff]
    · intro key
      rw [Table.get?_mapValues, Table.get?_mapValues]
      have hagree := agree_get? ht h key
      cases hx : t.get? key with
      | none =>
        rw [hx, agree_none_iff] at hagree
        rw [hagree]
      | some x =>
        rw [hx, agree_some_iff] at hagree
        obtain ⟨y, hy, hxy⟩ := hagree
        rw [hy, Option.map_some, Option.map_some,
          ih _ (Table.mem_of_get? hx) (hv.get? hx) (hw.get? hy) hxy]
    · rwa [Table.keys_mapValues]
    · rwa [Table.keys_mapValues]
  | alien e => exact e.elim
  | _ => rw [eq_of_leaf_same h rfl rfl]

/-- **Two values are the same iff they are identical once their keys are sorted.** -/
theorem same_iff_sortKeys_eq {v w : Value} (hv : v.WellKeyed) (hw : w.WellKeyed) :
    same v w = true ↔ v.sortKeys = w.sortKeys := by
  refine ⟨sortKeys_eq_of_same hv hw, fun h => ?_⟩
  have hv' := same_sortKeys hv
  rw [h] at hv'
  exact same_trans hv' (same_symm hw (wellKeyed_sortKeys hw) (same_sortKeys hw))

/-! ## Paths -/

/-- What is the same has the same under each key, or nothing. -/
theorem agree_field? {v w : Value} (hv : v.WellKeyed) (h : same v w = true) (key : String) :
    agree (v.field? key) (w.field? key) = true := by
  cases v with
  | table t =>
    obtain ⟨u, rfl⟩ := exists_of_table_same h
    exact agree_get? (Data.wellKeyed_table_iff.mp hv).1 h key
  | list items =>
    obtain ⟨items', rfl, -⟩ := exists_of_list_same h
    rfl
  | alien e => exact e.elim
  | _ =>
    obtain rfl := eq_of_leaf_same h rfl rfl
    rfl

/-- **What is the same has the same at each path**, or nothing. -/
theorem agree_at? {v w : Value} (hv : v.WellKeyed) (h : same v w = true) (keys : List String) :
    agree (v.at? keys) (w.at? keys) = true := by
  induction keys generalizing v w with
  | nil => exact h
  | cons key keys ih =>
    have hfield := agree_field? hv h key
    rw [at?_cons, at?_cons]
    cases hx : v.field? key with
    | none =>
      rw [hx, agree_none_iff] at hfield
      rw [hfield]
      rfl
    | some x =>
      rw [hx, agree_some_iff] at hfield
      obtain ⟨y, hy, hxy⟩ := hfield
      rw [hy]
      exact ih (wellKeyed_of_field? hv hx) hxy

/-- **To be the same is to be equal up to the order of keys.** Two values are the same iff they are
identical once the keys of all their tables are sorted. A value is the same as itself, of two values
that are the same either is the same as the other, and what the one is the same as the other is too.
The same keys lead in both to values that are the same, or in both to nothing. -/
theorem same_equality {u v : Value} (hu : u.WellKeyed) (hv : v.WellKeyed) :
    (same u v = true ↔ u.sortKeys = v.sortKeys) ∧
      same u u = true ∧
      (same u v = true → same v u = true) ∧
      (∀ w, same u v = true → same v w = true → same u w = true) ∧
      (same u v = true → ∀ keys, agree (u.at? keys) (v.at? keys) = true) :=
  ⟨same_iff_sortKeys_eq hu hv, same_refl hu, same_symm hu hv, fun _ => same_trans, agree_at? hu⟩

/-- A mob with one limb, and the same with the keys of both tables in another order. -/
theorem same_equality_moth :
    let u : Value := .table [("limbs", .list [.table [("left", .natural 1), ("10", .natural 2)]]),
      ("name", .text "moth")]
    let v : Value := .table [("name", .text "moth"),
      ("limbs", .list [.table [("10", .natural 2), ("left", .natural 1)]])]
    u.WellKeyed ∧ v.WellKeyed ∧ same u v = true ∧ u.sortKeys = v.sortKeys ∧ same v u = true ∧
      (∀ w, same v w = true → same u w = true) ∧
      ∀ keys, agree (u.at? keys) (v.at? keys) = true := by
  intro u v
  have hkeyed : u.WellKeyed ∧ v.WellKeyed := by
    simp [u, v, Data.WellKeyed, Data.ItemsWellKeyed, Data.EntriesWellKeyed, Data.natural]
  have hsame : same u v = true := by
    simp [u, v, same, sameItems, sameEntries, Data.natural]
  obtain ⟨hsorted, -, hsymm, htrans, hpaths⟩ := same_equality hkeyed.1 hkeyed.2
  exact ⟨hkeyed.1, hkeyed.2, hsame, hsorted.mp hsame, hsymm hsame, fun w => htrans w hsame,
    hpaths hsame⟩

end Value

end Bestiary
