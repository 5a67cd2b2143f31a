import Bestiary.Proofs.Schema.UnknownKey

/-!
# Unknown fields of mobs

Outside its behavior tree, a mob is made of closed records. A field that none of them declares is
refused, and the refusal names the field by its path, whichever record it was put in.

* `Definition.RecordPlace` lists the records of a mob, by place, and the keys that each declares.
* `Definition.refuses_unknownField`: a mob or patch that could be read cannot be read any more once
  a field is added that is not declared.
-/

namespace Bestiary

namespace FieldPath

theorem appendStep_ne_empty {text : String} (h : text ≠ "") (step : Step) :
    appendStep text step ≠ "" := by
  cases step with
  | index i => simp [appendStep, String.append_eq_empty_iff, toString, h]
  | key name => simp [appendStep, String.append_eq_empty_iff, toString, h]

/-- The text of a path that starts with a key is not empty. -/
theorem text_cons_key_ne_empty {name : String} (h : name ≠ "") (path : FieldPath) :
    text (.key name :: path) ≠ "" := by
  have hfold : ∀ (path : FieldPath) (start : String), start ≠ "" →
      path.foldl appendStep start ≠ "" := by
    intro path
    induction path with
    | nil => exact fun _ hstart => hstart
    | cons step path ih => exact fun start hstart => ih _ (appendStep_ne_empty hstart step)
  exact hfold path name h

theorem text_append_key (path : FieldPath) (k : String) :
    text (path ++ [.key k]) = if path.text = "" then k else s!"{path.text}.{k}" :=
  List.foldl_concat ..

end FieldPath

namespace Definition

open Schema

/-- The records that a mob consists of, apart from its behavior tree: the place of each, and the
keys of the fields that are declared there. -/
inductive RecordPlace : FieldPath → List String → Prop
  | mob : RecordPlace [] fieldKeys
  | collider (i : Int) :
      RecordPlace [.key "colliders", .index i] ["shape", "position", "rotation"]
  | shape (i : Int) :
      RecordPlace [.key "colliders", .index i, .key "shape"] ["Rectangle", "Circle", "Capsule"]
  | mobSpawners : RecordPlace [.key "mob_spawners"] ["spawners"]
  | mobSpawner (name : String) :
      RecordPlace [.key "mob_spawners", .key "spawners", .key name]
        ["timer", "position", "rotation", "mob_ref"]
  | projectileSpawners : RecordPlace [.key "projectile_spawners"] ["spawners"]
  | projectileSpawner (name : String) :
      RecordPlace [.key "projectile_spawners", .key "spawners", .key name]
        ["timer", "position", "rotation", "projectile_type", "faction", "speed_multiplier",
          "damage_multiplier", "range_seconds_multiplier", "pre_spawn_animation_start_time",
          "pre_spawn_animation_end_time"]
  | joint (i : Int) :
      RecordPlace [.key "jointed_mobs", .index i]
        ["key", "mob_ref", "offset_pos", "anchor_1_pos", "anchor_2_pos", "angle_limit_range",
          "compliance", "chain"]
  | angleLimit (i : Int) :
      RecordPlace [.key "jointed_mobs", .index i, .key "angle_limit_range"]
        ["min", "max", "torque"]
  | chain (i : Int) :
      RecordPlace [.key "jointed_mobs", .index i, .key "chain"]
        ["length", "pos_offset", "anchor_offset", "random_chain"]
  | randomChain (i : Int) :
      RecordPlace [.key "jointed_mobs", .index i, .key "chain", .key "random_chain"]
        ["min_length", "end_chance"]

variable {place : FieldPath} {keys : List String}

/-- The text of the place of a record is empty for the mob itself only. -/
theorem RecordPlace.text_eq_empty_iff (h : RecordPlace place keys) :
    place.text = "" ↔ place = [] := by
  cases h with
  | mob => exact iff_of_true rfl rfl
  | _ => exact iff_of_false (FieldPath.text_cons_key_ne_empty (by decide) _) (by simp)

/-! ## The schemas -/

/-- Records in the fields of a mob are records in any record with these fields. -/
theorem recordAt_of_mem {fields : List (String × Presence × Schema)}
    (hkeys : fields.map Prod.fst = fieldKeys)
    (hfields : ∀ f ∈ allFields, ∃ presence, (f.1, presence, f.2.2) ∈ fields)
    {f : String × Presence × Schema} (hf : f ∈ allFields) (h : f.2.2.RecordAt place keys) :
    (record fields).RecordAt (.key f.1 :: place) keys := by
  obtain ⟨presence, hmem⟩ := hfields f hf
  refine .field ?_ hmem h
  rw [hkeys]
  decide

theorem recordAt_shape : collider.RecordAt [.key "shape"] ["Rectangle", "Circle", "Capsule"] :=
  .field (by decide) List.mem_cons_self
    (.tagged [("Rectangle", point), ("Circle", .number), ("Capsule", point)] (by decide))

theorem recordAt_spawners {s : Schema} (h : s.RecordAt [] keys) (name : String) :
    (spawners s).RecordAt [.key "spawners", .key name] keys :=
  .field (List.nodup_singleton _) List.mem_cons_self (.entry name h)

/-- Records in a field that may be absent. -/
theorem recordAt_spare {fields : List (String × Presence × Schema)} {key : String} {s : Schema}
    (hnodup : (fields.map Prod.fst).Nodup) (hmem : spare key s ∈ fields)
    (h : s.RecordAt place keys) : (record fields).RecordAt (.key key :: place) keys :=
  .field hnodup hmem h

theorem recordAt_angleLimit : joint.RecordAt [.key "angle_limit_range"] ["min", "max", "torque"] :=
  recordAt_spare (s := angleLimit) (by decide) (by simp) (.record _)

/-- The chain of a joint, and what stands in it. -/
theorem recordAt_chain (h : chain.RecordAt place keys) :
    joint.RecordAt (.key "chain" :: place) keys :=
  recordAt_spare (by decide) (by simp) h

theorem recordAt_randomChain :
    chain.RecordAt [.key "random_chain"] ["min_length", "end_chance"] :=
  recordAt_spare (s := randomChain) (by decide) (by simp) (.record _)

/-- **The records of a mob are those of its schema**, whether its fields are required or not. -/
theorem recordAt_of_recordPlace {fields : List (String × Presence × Schema)}
    (hkeys : fields.map Prod.fst = fieldKeys)
    (hfields : ∀ f ∈ allFields, ∃ presence, (f.1, presence, f.2.2) ∈ fields)
    (h : RecordPlace place keys) : (record fields).RecordAt place keys := by
  have hcolliders : preset "colliders" (.list collider) (.list [defaultCollider]) ∈ allFields := by
    simp [allFields]
  have hmobs : spare "mob_spawners" (spawners mobSpawner) ∈ allFields := by simp [allFields]
  have hprojectiles : spare "projectile_spawners" (spawners projectileSpawner) ∈ allFields := by
    simp [allFields]
  have hjoints : preset "jointed_mobs" (.list joint) (.list []) ∈ allFields := by simp [allFields]
  cases h with
  | mob => exact hkeys ▸ .record fields
  | collider i => exact recordAt_of_mem hkeys hfields hcolliders (.item i (.record _))
  | shape i => exact recordAt_of_mem hkeys hfields hcolliders (.item i recordAt_shape)
  | mobSpawners => exact recordAt_of_mem hkeys hfields hmobs (.record _)
  | mobSpawner name =>
    exact recordAt_of_mem hkeys hfields hmobs (recordAt_spawners (.record _) name)
  | projectileSpawners => exact recordAt_of_mem hkeys hfields hprojectiles (.record _)
  | projectileSpawner name =>
    exact recordAt_of_mem hkeys hfields hprojectiles (recordAt_spawners (.record _) name)
  | joint i => exact recordAt_of_mem hkeys hfields hjoints (.item i (.record _))
  | angleLimit i => exact recordAt_of_mem hkeys hfields hjoints (.item i recordAt_angleLimit)
  | chain i => exact recordAt_of_mem hkeys hfields hjoints (.item i (recordAt_chain (.record _)))
  | randomChain i =>
    exact recordAt_of_mem hkeys hfields hjoints (.item i (recordAt_chain recordAt_randomChain))

theorem recordAt_schema (h : RecordPlace place keys) : schema.RecordAt place keys :=
  recordAt_of_recordPlace rfl (fun f hf => ⟨f.2.1, hf⟩) h

theorem recordAt_patchSchema (h : RecordPlace place keys) : patchSchema.RecordAt place keys :=
  recordAt_of_recordPlace rfl (fun _ hf => ⟨.optional, List.mem_map_of_mem hf⟩) h

/-! ## Refusals -/

/-- A field more is what the refusal is about, and what it says. -/
theorem readBy_writeAt? {s : Schema} (hs : s.RecordAt place keys) (hplace : RecordPlace place keys)
    {k : String} (hk : k ∉ keys) (hne : k ≠ "") {v v' x : Value}
    (hv' : Value.writeAt? k x place v = some v') {entity : String}
    (hv : ∃ m, readBy s entity v = .ok m) :
    ∃ e, readBy s entity v' = .error e ∧ e.entity = entity ∧
      e.field? = some (if place = [] then k else s!"{place.text}.{k}") := by
  have hread := hs.read_writeAt? (readBy_ok_iff.mp hv) hk hv'
  refine ⟨⟨entity, ⟨place, .unknownKeys k []⟩⟩, ?_, rfl, ?_⟩
  · rw [readBy, hread]
    rfl
  · have htext : FieldPath.text (place ++ [.key k]) ≠ "" := by
      rw [FieldPath.text_append_key]
      split
      · exact hne
      · simp_all [String.append_eq_empty_iff, toString]
    rw [DefinitionError.field?, DefinitionError.place, if_neg htext, FieldPath.text_append_key]
    simp only [hplace.text_eq_empty_iff]

/-- **A field that is not declared is refused, in every record of a mob, and named.** Let a mob be
read for an entity, and let a field be added, with anything in it, to one of the records that the
mob consists of: one that this record does not declare. Then the mob is refused, and the refusal
names the entity and the path of the field. The same is true of a patch. -/
theorem refuses_unknownField (hplace : RecordPlace place keys) {k : String} (hk : k ∉ keys)
    (hne : k ≠ "") {v v' x : Value} (hv' : Value.writeAt? k x place v = some v')
    (entity : String) :
    ((∃ m, read entity v = .ok m) →
      ∃ e, read entity v' = .error e ∧ e.entity = entity ∧
        e.field? = some (if place = [] then k else s!"{place.text}.{k}")) ∧
    ((∃ m, readPatch entity v = .ok m) →
      ∃ e, readPatch entity v' = .error e ∧ e.entity = entity ∧
        e.field? = some (if place = [] then k else s!"{place.text}.{k}")) :=
  ⟨readBy_writeAt? (recordAt_schema hplace) hplace hk hne hv',
    readBy_writeAt? (recordAt_patchSchema hplace) hplace hk hne hv'⟩

/-- A moth with one collider, of the given shape. -/
def mothOfShape (shape : Table Value) : Value :=
  .table [("name", .text "moth"), ("colliders", .list [.table [("shape", .table shape)]])]

/-- A circle is given by a number alone: with a radius beside it, it is refused. -/
theorem refuses_unknownField_radius :
    (∃ m, read "moth" (mothOfShape [("Circle", .natural 5)]) = .ok m) ∧
      (∃ m, readPatch "moth" (mothOfShape [("Circle", .natural 5)]) = .ok m) ∧
      (∃ e, read "moth" (mothOfShape [("Circle", .natural 5), ("radius", .natural 5)]) = .error e ∧
        e.entity = "moth" ∧ e.field? = some "colliders[0].shape.radius") ∧
      ∃ e, readPatch "moth" (mothOfShape [("Circle", .natural 5), ("radius", .natural 5)]) =
          .error e ∧
        e.entity = "moth" ∧ e.field? = some "colliders[0].shape.radius" := by
  have hread : ∃ m, read "moth" (mothOfShape [("Circle", .natural 5)]) = .ok m := ⟨_, rfl⟩
  have hpatch : ∃ m, readPatch "moth" (mothOfShape [("Circle", .natural 5)]) = .ok m := ⟨_, rfl⟩
  have hwrite : Value.writeAt? "radius" (.natural 5) [.key "colliders", .index 0, .key "shape"]
      (mothOfShape [("Circle", .natural 5)]) =
        some (mothOfShape [("Circle", .natural 5), ("radius", .natural 5)]) := rfl
  have hfield : toString (FieldPath.text [.key "colliders", .index 0, .key "shape"]) ++
      toString "." ++ toString "radius" = "colliders[0].shape.radius" := by decide
  have h := refuses_unknownField (.shape 0) (by decide) (by decide) hwrite "moth"
  rw [if_neg (by simp), hfield] at h
  exact ⟨hread, hpatch, h.1 hread, h.2 hpatch⟩

end Definition

end Bestiary
