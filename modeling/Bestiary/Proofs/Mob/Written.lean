import Bestiary.Proofs.Behavior.Codec
import Bestiary.Proofs.Schema.Reordered

/-!
# Definitions that are written

A definition that was read can be written, and what is written is read again as the same definition,
but for the references of its joints: they are brought to names each time that they are read.

* `Definition.read_eq_ok_iff` says what a definition is read as: its fields by their schemas, its
  behavior tree by itself.
* `Definition.fieldRereadsAs`: every default passes the check of its field, and every field but that
  of the joints is read again as it is.
* `Definition.renamed_eq_self_iff`: a definition is left as it is iff its references are names.
* `Definition.read_written` is the round trip.
-/

namespace Bestiary.Definition

open Schema Value

/-! ## Schemas that are stable -/

theorem isStable_point : point.IsStable := isStable_pair isStable_number isStable_number

theorem fieldIsStable_needed {key : String} {s : Schema} (h : s.IsStable) :
    FieldIsStable (needed key s) := fieldRereadsAs_required h

theorem fieldIsStable_spare {key : String} {s : Schema} (h : s.IsStable) :
    FieldIsStable (spare key s) := fieldRereadsAs_optional h

theorem fieldIsStable_preset {key : String} {s : Schema} {d : Value} (h : s.IsStable)
    (hd : s.read d = .accepted d) : FieldIsStable (preset key s d) := fieldRereadsAs_defaulted h hd

theorem fieldIsStable_offset {key : String} : FieldIsStable (offset key) :=
  fieldIsStable_preset isStable_point rfl

theorem fieldIsStable_count {key : String} {n : Number} (hinteger : n.isInteger = true)
    (hpositive : ¬n < .zero) : FieldIsStable (preset key count (.number n)) := by
  refine fieldIsStable_preset (isStable_natural none) ?_
  simp [count, Schema.read, readNatural, hinteger, hpositive]

theorem isStable_shape : shape.IsStable := by
  refine isStable_variants_of_nodup [("Rectangle", point), ("Circle", .number), ("Capsule", point)]
    (by decide) ?_
  simp [isStable_point, isStable_number]

theorem isStable_collider : collider.IsStable :=
  isStable_record (by decide) ⟨fieldIsStable_needed isStable_shape, fieldIsStable_offset,
    fieldIsStable_preset isStable_number rfl⟩

theorem isStable_mobSpawner : mobSpawner.IsStable :=
  isStable_record (by decide) ⟨fieldIsStable_needed isStable_number,
    fieldIsStable_needed isStable_point, fieldIsStable_needed isStable_number,
    fieldIsStable_needed isStable_text⟩

theorem isStable_projectileSpawner : projectileSpawner.IsStable :=
  isStable_record (by decide) ⟨fieldIsStable_needed isStable_number,
    fieldIsStable_needed isStable_point, fieldIsStable_needed isStable_number,
    fieldIsStable_needed (isStable_oneOf _), fieldIsStable_needed (isStable_oneOf _),
    fieldIsStable_preset isStable_number rfl, fieldIsStable_preset isStable_number rfl,
    fieldIsStable_preset isStable_number rfl, fieldIsStable_preset isStable_number rfl,
    fieldIsStable_preset isStable_number rfl⟩

theorem isStable_spawners {spawner : Schema} (h : spawner.IsStable) :
    (spawners spawner).IsStable :=
  isStable_record (List.nodup_singleton _) (fieldIsStable_needed (isStable_dictionary h))

theorem isStable_angleLimit : angleLimit.IsStable :=
  isStable_record (by decide) ⟨fieldIsStable_needed isStable_number,
    fieldIsStable_needed isStable_number, fieldIsStable_needed isStable_number⟩

theorem isStable_randomChain : randomChain.IsStable :=
  isStable_record (by decide)
    ⟨fieldIsStable_needed (isStable_natural _), fieldIsStable_needed isStable_number⟩

theorem isStable_chain : chain.IsStable :=
  isStable_record (by decide) ⟨fieldIsStable_needed (isStable_natural _),
    fieldIsStable_needed isStable_point, fieldIsStable_needed isStable_point,
    fieldIsStable_spare isStable_randomChain⟩

theorem isStable_decoration : decoration.IsStable := isStable_pair isStable_text isStable_point

/-! ## References of joints -/

/-- A joint with its reference brought to the name. -/
def renamedJoint : Value → Value := onField "mob_ref" (onText (nameOf defaultRoot))

/-- A definition with the reference of each joint brought to the name. -/
def renamed (m : Definition) : Definition :=
  { m with fields := m.fields.modify "jointed_mobs" (onItems renamedJoint) }

/-- The references of the joints of a definition. -/
def jointRefs (m : Definition) : List String :=
  (((m.fields.get? "jointed_mobs").bind Data.list?).getD []).filterMap fun joint =>
    (joint.field? "mob_ref").bind Data.text?

/-- The reference is the one field of a joint that changes. -/
theorem rereadsAs_joint : joint.RereadsAs renamedJoint := by
  refine rereadsAs_record "mob_ref" (by decide) <| fieldRereadsAs_of_forall (by decide)
    (.tail _ (.head _)) (fieldRereadsAs_required rereadsAs_mobRef) ?_
  exact ⟨.inr (fieldIsStable_needed isStable_text), .inl rfl, .inr fieldIsStable_offset,
    .inr fieldIsStable_offset, .inr fieldIsStable_offset,
    .inr (fieldIsStable_spare isStable_angleLimit), .inr (fieldIsStable_preset isStable_number rfl),
    .inr (fieldIsStable_spare isStable_chain)⟩

/-- **Every default passes the check of its field**, and every field but that of the joints is read
again as it is. -/
theorem fieldRereadsAs : ∀ field ∈ allFields, FieldRereadsAs field
    (if field.1 = "jointed_mobs" then onItems renamedJoint else id) := by
  have hjoints : preset "jointed_mobs" (.list joint) (.list []) ∈ allFields := by
    simp [allFields]
  refine fieldRereadsAs_of_forall (by decide) hjoints
    (fieldRereadsAs_defaulted (rereadsAs_list rereadsAs_joint) rfl) ?_
  have hnumber : ∀ {key d}, FieldIsStable (preset key .number (.number d)) :=
    fieldIsStable_preset isStable_number rfl
  have hpoint : ∀ {key x y},
      FieldIsStable (preset key point (pairValue (.number x) (.number y))) :=
    fieldIsStable_preset isStable_point rfl
  have hflag : ∀ {key b}, FieldIsStable (preset key .flag (.flag b)) :=
    fieldIsStable_preset isStable_flag rfl
  have hlayers : (Schema.list (.oneOf physicsLayers)).IsStable := isStable_list (isStable_oneOf _)
  exact ⟨.inr (fieldIsStable_needed isStable_text), .inr hflag,
    .inr (fieldIsStable_preset (isStable_list isStable_collider) rfl), .inr hnumber, .inr hflag,
    .inr hpoint, .inr hpoint, .inr hpoint, .inr hnumber, .inr hnumber, .inr hnumber, .inr hnumber,
    .inr hnumber, .inr hnumber, .inr (fieldIsStable_preset hlayers rfl),
    .inr (fieldIsStable_preset hlayers rfl),
    .inr (fieldIsStable_count (by decide +kernel) (by decide +kernel)),
    .inr (fieldIsStable_spare isStable_number), .inr hnumber,
    .inr (fieldIsStable_count (by decide +kernel) (by decide +kernel)), .inr hnumber,
    .inr (fieldIsStable_preset isStable_text rfl),
    .inr (fieldIsStable_preset (isStable_list isStable_decoration) rfl),
    .inr (fieldIsStable_spare (isStable_spawners isStable_mobSpawner)),
    .inr (fieldIsStable_spare (isStable_spawners isStable_projectileSpawner)), .inl rfl, .inr hflag,
    .inr (fieldIsStable_spare isStable_anything)⟩

/-! ## What is read -/

/-- The fields that are kept as they are read: all but the behavior tree, which is the last. -/
def ownFields : List (String × Presence × Schema) := allFields.dropLast

theorem allFields_eq : allFields = ownFields ++ [spare "behavior" .anything] := rfl

theorem isTidy_schema : schema.isTidy = true := by decide +kernel

theorem mem_fieldKeys_iff {key : String} :
    key ∈ fieldKeys ↔ key ∈ ownFields.map Prod.fst ∨ key = "behavior" := by
  rw [fieldKeys, allFields_eq, List.map_append, List.mem_append]
  simp [spare]

theorem behavior_not_mem : "behavior" ∉ ownFields.map Prod.fst := by decide

/-- The tree is none of the fields that are kept as they are read. -/
theorem behavior_not_mem_keys {entries fields : Table Value}
    (h : readFields ownFields entries = .accepted fields) : "behavior" ∉ fields.keys :=
  mt (mem_keys_of_readFields h "behavior") behavior_not_mem

theorem readFields_behavior (entries : Table Value) :
    readFields [spare "behavior" .anything] entries =
      .accepted ((entries.get? "behavior").map fun tree => ("behavior", tree)).toList := by
  rw [spare, readFields]
  cases entries.get? "behavior" <;> rfl

/-- The tree stands behind the fields, which have other keys. -/
theorem ofTable_append {fields : Table Value} (h : "behavior" ∉ fields.keys) (tree : Option Value) :
    ofTable (fields ++ (tree.map fun tree => ("behavior", tree)).toList) =
      ⟨fields, tree.map Node.read⟩ := by
  have hget := Table.get?_eq_none_iff.mpr h
  have herase := Table.erase_of_not_mem h
  cases tree with
  | none =>
    rw [Option.map_none, Option.toList_none, List.append_nil, ofTable, herase, hget,
      Option.map_none]
  | some tree =>
    rw [ofTable, Table.erase_append, herase, Table.get?_append, hget]
    simp [Table.erase]

/-- **What a definition is read as**: the fields of a table that has no others, and its tree. -/
theorem read_eq_ok_iff {entity : String} {v : Value} {m : Definition} :
    read entity v = .ok m ↔ ∃ entries : Table Value, v = .table entries ∧
      (∀ k ∈ entries.keys, k ∈ fieldKeys) ∧
        readFields ownFields entries = .accepted m.fields ∧
          m.behavior = (entries.get? "behavior").map Node.read := by
  have hread : read entity v = .ok m ↔
      ∃ w, schema.read v = .accepted w ∧ ofTable (w.table?.getD []) = m := by
    rw [read, readBy]
    cases h : (schema.read v).toExcept with
    | error issue => simp [← Outcome.toExcept_eq_ok_iff, h]
    | ok w => simp [← Outcome.toExcept_eq_ok_iff, h]
  rw [hread]
  constructor
  · rintro ⟨w, hw, rfl⟩
    obtain ⟨entries, rfl⟩ := exists_table_of_accepts_record ⟨w, hw⟩
    obtain ⟨t, ht, hclosed, rfl⟩ := read_record_eq_accepted_iff.mp hw
    rw [allFields_eq, readFields_append_eq_accepted_iff, readFields_behavior] at ht
    obtain ⟨own, hown, tree, htree, rfl⟩ := ht
    obtain rfl := Outcome.accepted.inj htree
    rw [Data.table?, Option.getD_some, ofTable_append (behavior_not_mem_keys hown)]
    exact ⟨entries, rfl, hclosed, hown, rfl⟩
  · rintro ⟨entries, rfl, hclosed, hown, hbehavior⟩
    have hkeys := behavior_not_mem_keys hown
    refine ⟨_, read_record_eq_accepted_iff.mpr ⟨_, readFields_append_eq_accepted_iff.mpr
      ⟨_, hown, _, readFields_behavior entries, rfl⟩, hclosed, rfl⟩, ?_⟩
    rw [Data.table?, Option.getD_some, ofTable_append hkeys, ← hbehavior]

/-! ## What is written -/

/-- What was read can be written: its fields, then its tree. -/
theorem written_eq {m : Definition} (h : "behavior" ∉ m.fields.keys) :
    m.written = .ok m.toTable := by
  rw [written, writtenFrom, Loose.withoutAbsentEntries_loosen, Loose.narrowEntries_loosen, toTable]
  cases m.behavior with
  | none => simp [bind, Except.bind, pure, Except.pure]
  | some n =>
    simp [bind, Except.bind, pure, Except.pure, Node.toValue_loosen, Table.set_eq_append h rfl]

/-- What was read has no tree among its fields, so it is written. -/
theorem written_of_read {entity : String} {v : Value} {m : Definition} (h : read entity v = .ok m) :
    m.written = .ok m.toTable := by
  obtain ⟨entries, -, -, hown, -⟩ := read_eq_ok_iff.mp h
  exact written_eq (behavior_not_mem_keys hown)

theorem get?_toTable (m : Definition) (key : String) :
    Table.get? m.toTable key =
      (m.fields.get? key).or (if key = "behavior" then m.behavior.map Node.toData else none) := by
  rw [toTable, Table.get?_append]
  cases m.behavior <;> simp [eq_comm]

theorem mem_keys_toTable {m : Definition} {key : String} (h : key ∈ Table.keys m.toTable) :
    key ∈ m.fields.keys ∨ key = "behavior" := by
  rw [Table.mem_keys_iff, get?_toTable] at h
  rw [Table.mem_keys_iff]
  by_cases hkey : key = "behavior"
  · exact .inr hkey
  · rw [if_neg hkey, Option.or_none] at h
    exact .inl h

/-- What was read is read again from what is written, its references once more brought to names. -/
theorem read_toTable {entity : String} {v : Value} {m : Definition} (h : read entity v = .ok m) :
    read entity (.table m.toTable) = .ok m.renamed := by
  obtain ⟨entries, rfl, -, hown, hbehavior⟩ := read_eq_ok_iff.mp h
  have hkeys := mem_keys_of_readFields hown
  refine read_eq_ok_iff.mpr ⟨_, rfl, fun key hkey => ?_, ?_, ?_⟩
  · exact mem_fieldKeys_iff.mpr ((mem_keys_toTable hkey).imp_left (hkeys key))
  · refine readFields_again (by decide) (fun field hfield => fieldRereadsAs field ?_) hown ?_
    · rw [allFields_eq]
      exact List.mem_append_left _ hfield
    · intro key hkey
      have hne : key ≠ "behavior" := by
        rintro rfl
        exact behavior_not_mem hkey
      rw [get?_toTable, if_neg hne, Option.or_none]
  · have hnone : m.fields.get? "behavior" = none :=
      Table.get?_eq_none_iff.mpr (behavior_not_mem_keys hown)
    rw [get?_toTable, hnone, Option.none_or, if_pos rfl, renamed, hbehavior]
    cases entries.get? "behavior" with
    | none => rfl
    | some tree => exact congrArg some (Node.read_toData_read tree).symm

/-! ## References that are names -/

theorem onText_eq_self_iff {f : String → String} {v : Value} :
    onText f v = v ↔ ∀ s, v.text? = some s → f s = s := by
  cases v <;> simp [onText, Data.text?]

theorem onItems_eq_self_iff {f : Value → Value} {v : Value} :
    onItems f v = v ↔ ∀ x ∈ v.list?.getD [], f x = x := by
  cases v with
  | list items =>
    have hmap : items.map f = items ↔ ∀ x ∈ items, f x = x := by
      simpa using List.map_inj_left (l := items) (f := f) (g := id)
    simp [onItems, Data.list?, hmap]
  | _ => simp [onItems, Data.list?]

theorem onField_eq_self_iff {key : String} {f : Value → Value} {v : Value} :
    onField key f v = v ↔ ∀ w, v.field? key = some w → f w = w := by
  cases v with
  | table t =>
    simp [onField, Data.field?, Data.table?, Table.modify_eq_self_iff]
  | _ => simp [onField, Data.field?, Data.table?]

/-- **A definition is left as it is iff the references of its joints are names.** -/
theorem renamed_eq_self_iff (m : Definition) :
    m.renamed = m ↔ ∀ ref ∈ m.jointRefs, nameOf defaultRoot ref = ref := by
  have hfields : m.renamed = m ↔
      m.fields.modify "jointed_mobs" (onItems renamedJoint) = m.fields := by
    cases m
    simp [renamed]
  rw [hfields, Table.modify_eq_self_iff, jointRefs]
  cases m.fields.get? "jointed_mobs" with
  | none => simp
  | some joints =>
    simp only [Option.some.injEq, forall_eq', Option.bind_some, onItems_eq_self_iff, renamedJoint,
      onField_eq_self_iff, onText_eq_self_iff, List.mem_filterMap, Option.bind_eq_some_iff]
    exact ⟨fun h ref ⟨x, hx, w, hw, hs⟩ => h x hx w hw ref hs,
      fun h x hx w hw ref hs => h ref ⟨x, hx, w, hw, hs⟩⟩

/-- **A definition that was read can be written and read again.** It differs in the references of
its joints, which are brought to names once more, and in nothing else; so it is the same iff these
were names. -/
theorem read_written {entity : String} {v : Value} {m : Definition} (h : read entity v = .ok m) :
    ∃ t, m.written = .ok t ∧ read entity (.table t) = .ok m.renamed ∧
      (read entity (.table t) = .ok m ↔ ∀ ref ∈ m.jointRefs, nameOf defaultRoot ref = ref) := by
  have hfields : "behavior" ∉ m.fields.keys := by
    obtain ⟨entries, -, -, hown, -⟩ := read_eq_ok_iff.mp h
    exact mt (mem_keys_of_readFields hown "behavior") behavior_not_mem
  refine ⟨m.toTable, written_eq hfields, read_toTable h, ?_⟩
  rw [read_toTable h, Except.ok.injEq, renamed_eq_self_iff]

/-- A mob with a wing that is referred to by a path inside a path, a wing that is referred to by its
name, and a tree of an unknown type. -/
def moth : Value :=
  .table [("name", .text "moth"),
    ("jointed_mobs", .list [
      .table [("key", .text "left"), ("mob_ref", .text "mobs/mobs/wing.mob")],
      .table [("mob_ref", .text "wing"), ("key", .text "right")]]),
    ("behavior", .table [("type", .text "Flutter"), ("wings", .natural 2)])]

theorem read_written_moth :
    ∃ m t, read "moth" moth = .ok m ∧ m.jointRefs = ["mobs/wing", "wing"] ∧
      m.written = .ok t ∧ read "moth" (.table t) = .ok m.renamed ∧
        read "moth" (.table t) ≠ .ok m := by
  obtain ⟨m, hm, hrefs⟩ : ∃ m, read "moth" moth = .ok m ∧ m.jointRefs = ["mobs/wing", "wing"] :=
    ⟨_, rfl, by rfl⟩
  obtain ⟨t, ht, hread, hsame⟩ := read_written hm
  refine ⟨m, t, hm, hrefs, ht, hread, fun heq => ?_⟩
  have hname := hsame.mp heq "mobs/wing" (by rw [hrefs]; exact .head _)
  exact absurd hname (by decide)

end Bestiary.Definition
