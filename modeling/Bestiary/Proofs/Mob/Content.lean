import Bestiary.Proofs.Behavior.Reordered
import Bestiary.Proofs.Mob.Written
import Bestiary.Proofs.Schema.Kept

/-!
# What definitions keep

Whoever defines a mob finds all of it in the written definition: each field, each spawner, each node
of the tree, and the references of the joints by the names that they stand for. One thing is lost:
a spawner under the key that dictionaries never keep.

* `Definition.kept_schema` says what the schema of mobs keeps.
* `Definition.at?_reserved_of_read`: no spawner that was read is under the reserved key.
* `Definition.written_within` says what of a mob is in its written definition, and when all is.
-/

namespace Bestiary.Definition

open Schema Value

/-! ## What the schema keeps -/

/-- A mob with the references of its joints brought to names. -/
def named : Value → Value := onField "jointed_mobs" (onItems renamedJoint)

/-- The fields that hold spawners. -/
def spawnerKinds : List String := ["mob_spawners", "projectile_spawners"]

/-- Spawners of one kind, without the one under the reserved key. -/
def unreserved : Value → Value := onField "spawners" (onTable fun t => t.erase reservedKey)

/-- A mob without spawners under the reserved key. -/
def withoutReserved (v : Value) : Value :=
  onField "mob_spawners" unreserved (onField "projectile_spawners" unreserved v)

theorem kept_joint : joint.kept = renamedJoint := by
  have hkept : joint.kept = onField "mob_ref" mobRef.kept := kept_record_of_filter_eq rfl
  rw [hkept]
  rfl

theorem kept_spawners {spawner : Schema} (h : spawner.isExact = true) :
    (spawners spawner).kept = unreserved := by
  rw [spawners, kept_record_of_filter_eq rfl, kept_dictionary_of_isExact h, unreserved]

/-- **What the schema of mobs keeps**: all but the spawners under the reserved key, with references
brought to names. -/
theorem kept_schema (v : Value) : schema.kept v = withoutReserved (named v) := by
  have hfilter : allFields.filter (fun f => !f.2.2.isExact) =
      [spare "mob_spawners" (spawners mobSpawner),
        spare "projectile_spawners" (spawners projectileSpawner),
        preset "jointed_mobs" (.list joint) (.list [])] := rfl
  have hjoints : (Schema.list joint).kept = onItems renamedJoint := by
    funext v
    rw [kept, kept_joint]
  have hmob : (spawners mobSpawner).kept = unreserved := kept_spawners rfl
  have hprojectile : (spawners projectileSpawner).kept = unreserved := kept_spawners rfl
  rw [schema, kept]
  cases v with
  | table t =>
    rw [onTable, keptFields_eq_filter, hfilter]
    simp only [spare, preset, keptFields, hjoints, hmob, hprojectile]
    rfl
  | _ => rfl

/-- What the schema keeps of a mob is in its written form, the tree with the rest. -/
theorem within_kept {entity : String} {v : Value} (hv : v.WellKeyed) {m : Definition}
    (h : read entity v = .ok m) : within (schema.kept v) (.table m.toTable) = true := by
  obtain ⟨entries, rfl, hclosed, hown, hbehavior⟩ := read_eq_ok_iff.mp h
  obtain ⟨hnodup, htidy⟩ := isTidy_record_iff.mp isTidy_schema
  rw [schema, kept, onTable]
  refine within_keptFields hnodup (Data.wellKeyed_table_iff.mp hv).1 hclosed ?_
  intro key presence s hfield v hget
  have hvalue : v.WellKeyed := hv.get? hget
  have htidy := (htidy _ hfield).2
  rw [allFields_eq, List.mem_append, List.mem_singleton] at hfield
  rcases hfield with hfield | hfield
  · have hread := get?_of_readFields (by decide) hfield hown
    rw [hget] at hread
    obtain ⟨w, hw, hwget⟩ := hread
    refine ⟨w, ?_, keeps htidy v w hvalue hw⟩
    rw [get?_toTable, hwget, Option.some_or]
  · cases hfield
    have hnone : m.fields.get? "behavior" = none :=
      Table.get?_eq_none_iff.mpr (behavior_not_mem_keys hown)
    refine ⟨(Node.read v).toData, ?_, ?_⟩
    · rw [get?_toTable, hnone, Option.none_or, if_pos rfl, hbehavior, hget]
      rfl
    · exact within_of_same
        (same_symm (Node.wellKeyed_toData_read hvalue) hvalue (Node.same_toData_read hvalue))

/-! ## Spawners under the reserved key -/

theorem exists_spawners_mem {kind : String} (h : kind ∈ spawnerKinds) :
    ∃ spawner, spare kind (spawners spawner) ∈ ownFields := by
  rw [spawnerKinds, List.mem_pair] at h
  rcases h with rfl | rfl
  · exact ⟨mobSpawner, by simp [ownFields, allFields]⟩
  · exact ⟨projectileSpawner, by simp [ownFields, allFields]⟩

theorem at?_reserved_of_read_spawners {spawner : Schema} {v w : Value}
    (h : (spawners spawner).read v = .accepted w) : w.at? ["spawners", reservedKey] = none := by
  obtain ⟨entries, rfl⟩ := exists_table_of_accepts_record ⟨w, h⟩
  obtain ⟨t, ht, -, rfl⟩ := read_record_eq_accepted_iff.mp h
  have hnodup : ([needed "spawners" (.dictionary spawner)].map Prod.fst).Nodup :=
    List.nodup_singleton _
  have hread := get?_of_readFields hnodup List.mem_cons_self ht
  cases hget : entries.get? "spawners" with
  | none =>
    rw [hget] at hread
    obtain ⟨part, hpart, -⟩ := hread
    exact absurd hpart (by simp [readAbsent])
  | some d =>
    rw [hget] at hread
    obtain ⟨d', hd, hd'⟩ := hread
    obtain ⟨u, rfl, u', hu, rfl⟩ := read_dictionary_eq_accepted_iff.mp hd
    rw [at?_table, hd', Option.bind_some, at?_singleton]
    exact get?_reservedKey_of_readEntries hu

/-- **No spawner that was read is under the reserved key.** -/
theorem at?_reserved_of_read {entity : String} {v : Value} {m : Definition}
    (h : read entity v = .ok m) {kind : String} (hkind : kind ∈ spawnerKinds) :
    Value.at? (.table m.toTable) [kind, "spawners", reservedKey] = none := by
  obtain ⟨entries, rfl, -, hown, -⟩ := read_eq_ok_iff.mp h
  obtain ⟨spawner, hfield⟩ := exists_spawners_mem hkind
  have hne : kind ≠ "behavior" := by
    rintro rfl
    exact absurd hkind (by decide)
  have hread := get?_of_readFields (by decide) hfield hown
  rw [at?_table, get?_toTable, if_neg hne, Option.or_none]
  cases hget : entries.get? kind with
  | none =>
    rw [hget] at hread
    obtain ⟨part, hpart, hnone⟩ := hread
    obtain rfl := Outcome.accepted.inj hpart
    rw [hnone]
    rfl
  | some x =>
    rw [hget] at hread
    obtain ⟨w, hw, hwget⟩ := hread
    rw [hwget]
    exact at?_reserved_of_read_spawners hw

theorem unreserved_eq_self {v : Value} (h : v.at? ["spawners", reservedKey] = none) :
    unreserved v = v := by
  refine onField_eq_self_iff.mpr fun x hx => ?_
  rw [at?_cons, hx, Option.bind_some, at?_singleton] at h
  cases x with
  | table t => rw [onTable, Table.erase_of_not_mem (Table.get?_eq_none_iff.mp h)]
  | _ => rfl

/-- A mob without spawners under the reserved key is left as it is. -/
theorem withoutReserved_eq_self {v : Value}
    (h : ∀ kind ∈ spawnerKinds, v.at? [kind, "spawners", reservedKey] = none) :
    withoutReserved v = v := by
  have hkind : ∀ kind ∈ spawnerKinds, onField kind unreserved v = v := fun kind hkind =>
    onField_eq_self_iff.mpr fun x hx => unreserved_eq_self (by simpa [at?, hx] using h kind hkind)
  rw [withoutReserved, hkind _ (by simp [spawnerKinds]), hkind _ (by simp [spawnerKinds])]

/-- The references of joints are elsewhere. -/
theorem at?_named (v : Value) {kind : String} (h : kind ∈ spawnerKinds) (keys : List String) :
    (named v).at? (kind :: keys) = v.at? (kind :: keys) := by
  have hne : "jointed_mobs" ≠ kind := by
    rintro rfl
    exact absurd h (by decide)
  cases v with
  | table t =>
    rw [named, onField, at?_table, at?_table, Table.get?_modify, if_neg hne]
  | _ => rfl

/-! ## What is written -/

/-- **A definition that was read is written with all that was in it**: every entry of every table
under its key, every item at its place, every leaf as it was, the references of joints as names. A
spawner under the reserved key is not written, so all is there iff there is no such spawner. -/
theorem written_within {entity : String} {v : Value} (hv : v.WellKeyed) {m : Definition}
    (h : read entity v = .ok m) :
    ∃ t, m.written = .ok t ∧ within (withoutReserved (named v)) (.table t) = true ∧
      (within (named v) (.table t) = true ↔
        ∀ kind ∈ spawnerKinds, v.at? [kind, "spawners", reservedKey] = none) := by
  have hwithin : within (withoutReserved (named v)) (.table m.toTable) = true := by
    rw [← kept_schema]
    exact within_kept hv h
  refine ⟨m.toTable, written_of_read h, hwithin, fun hall kind hkind => ?_, fun hnone => ?_⟩
  · cases hat : v.at? [kind, "spawners", reservedKey] with
    | none => rfl
    | some x =>
      rw [← at?_named v hkind] at hat
      obtain ⟨y, hy, -⟩ := exists_at?_of_within hall hat
      exact absurd ((at?_reserved_of_read h hkind).symm.trans hy) (by simp)
  · rwa [withoutReserved_eq_self fun kind hkind => (at?_named v hkind _).trans (hnone kind hkind)]
      at hwithin

/-- A spawner. -/
def nest : Value :=
  .table [("timer", .natural 1), ("position", pairValue (.natural 0) (.natural 0)),
    ("rotation", .natural 0), ("mob_ref", .text "wing")]

/-- A mob with a nest under the reserved key and another, a wing that is referred to by its path,
and a tree of an unknown type. -/
def nester : Value :=
  .table [("name", .text "moth"),
    ("mob_spawners", .table [("spawners", .table [("left", nest), ("__proto__", nest)])]),
    ("jointed_mobs", .list [.table [("key", .text "left"), ("mob_ref", .text "mobs/wing.mob")]]),
    ("behavior", .table [("type", .text "Flutter"), ("wings", .natural 2)])]

theorem wellKeyed_nester : nester.WellKeyed := by
  simp [nester, nest, pairValue, Data.natural, Data.WellKeyed, Data.ItemsWellKeyed,
    Data.EntriesWellKeyed]

theorem written_within_nester :
    ∃ m t, read "moth" nester = .ok m ∧ m.written = .ok t ∧
      within (withoutReserved (named nester)) (.table t) = true ∧
        within (named nester) (.table t) = false := by
  obtain ⟨m, hm⟩ : ∃ m, read "moth" nester = .ok m := ⟨_, rfl⟩
  obtain ⟨t, ht, hwithin, hall⟩ := written_within wellKeyed_nester hm
  refine ⟨m, t, hm, ht, hwithin, Bool.eq_false_iff.mpr fun h => ?_⟩
  have hnone := hall.mp h "mob_spawners" (by simp [spawnerKinds])
  exact absurd hnone (by simp [nester, at?, Data.field?, Data.table?, reservedKey])

/-- The nest under the reserved key is lost. -/
theorem not_within_nester :
    nester.WellKeyed ∧ ∃ m t, read "moth" nester = .ok m ∧ m.written = .ok t ∧
      nester.at? ["mob_spawners", "spawners", "__proto__"] = some nest ∧
        Value.at? (.table t) ["mob_spawners", "spawners", "__proto__"] = none ∧
          ¬within (named nester) (.table t) = true := by
  obtain ⟨m, hm⟩ : ∃ m, read "moth" nester = .ok m := ⟨_, rfl⟩
  have hkind : "mob_spawners" ∈ spawnerKinds := by simp [spawnerKinds]
  have hnest : nester.at? ["mob_spawners", "spawners", "__proto__"] = some nest := rfl
  have hlost := at?_reserved_of_read hm hkind
  refine ⟨wellKeyed_nester, m, m.toTable, hm, written_of_read hm, hnest, hlost, fun h => ?_⟩
  obtain ⟨y, hy, -⟩ := exists_at?_of_within h ((at?_named _ hkind _).trans hnest)
  exact absurd (hlost.symm.trans hy) (by simp)

end Bestiary.Definition
