import Bestiary.Proofs.Editor.Validity
import Bestiary.Proofs.Schema.Reread

/-!
# Patches on their own

A patch is merged into its base at every depth, but it is checked on its own before: only at the top
may a field be left out of it. So a patch of a sound mob may be refused although the mob that it
makes is sound as well. What it may hold in part is told by the three fields that are tables: the
spawners of both kinds, which have to be whole, and the behavior tree, which has to be sound.

* `Value.LaidInto` says of a value that it shows in another one, as a patch does in what is merged.
* `Definition.HoldsWhole` is what is demanded of a patch beyond that it makes a sound mob.
* `patch_isValid_iff`: a patch that makes a sound mob is valid iff it is that way.
-/

namespace Bestiary

open Data (WellKeyed)

namespace Value

/-! ## What shows of a patch -/

/-- `w` is what becomes of a value that may be absent when `v` is laid over it. -/
def LaidInto (v w : Value) : Prop := ∃ o, w = mergeOnto o v

namespace LaidInto

variable {v w : Value}

/-- What is no table replaces what was there. -/
theorem eq_of_no_table (h : LaidInto v w) (hv : v.table? = none) : w = v := by
  obtain ⟨o, rfl⟩ := h
  exact mergeOnto_of_table?_eq_none o hv

/-- What is no table has replaced what was there. -/
theorem eq_of_result (h : LaidInto v w) (hw : w.table? = none) : w = v := by
  refine h.eq_of_no_table ?_
  obtain ⟨o, rfl⟩ := h
  cases v with
  | table t =>
    rw [mergeOnto_table] at hw
    cases hbase : o.bind Data.table? <;> rw [hbase] at hw <;> cases hw
  | _ => rfl

/-- A table shows in a table, entry by entry. -/
theorem exists_table {t : Table Value} (h : LaidInto (.table t) w) (hn : t.keys.Nodup) :
    ∃ u : Table Value, w = .table u ∧ ∀ key v, t.get? key = some v →
      ∃ w', u.get? key = some w' ∧ LaidInto v w' := by
  obtain ⟨o, rfl⟩ := h
  rw [mergeOnto_table]
  cases o.bind Data.table? with
  | none =>
    refine ⟨t, rfl, fun key v hv => ⟨v, hv, none, ?_⟩⟩
    cases v with
    | table t => rw [mergeOnto_table]; rfl
    | _ => exact (mergeOnto_of_table?_eq_none none rfl).symm
  | some base =>
    refine ⟨overlay base t, rfl, fun key v hv => ⟨mergeOnto (base.get? key) v, ?_, _, rfl⟩⟩
    rw [get?_overlay base hn, hv]

end LaidInto

/-- What is merged of a patch. -/
theorem laidInto_overlay (base patch : Table Value) :
    LaidInto (.table patch) (.table (overlay base patch)) :=
  ⟨some (.table base), (merge_table base patch).symm⟩

end Value

open Value (LaidInto)

/-! ## The schema -/

namespace Schema

/-- Whether a schema may accept a table. -/
def takesTables : Schema → Bool
  | .dictionary _ => true
  | .record _ => true
  | .variants _ => true
  | .anything => true
  | _ => false

theorem table?_of_takesTables_eq_false {s : Schema} (hs : s.takesTables = false) {v : Value}
    (h : s.Accepts v) : v.table? = none := by
  cases v with
  | table t =>
    obtain ⟨w, hw⟩ := h
    cases s with
    | dictionary entry => cases hs
    | record fields => cases hs
    | variants alternatives => cases hs
    | anything => cases hs
    | _ => exact absurd hw (by simp [read, readNatural, readOneOf, readPair, wrongKind])
  | _ => rfl

end Schema

namespace Definition

/-- The fields that are tables, or may be. -/
def tableFields : List String := ["mob_spawners", "projectile_spawners", "behavior"]

theorem takesTables_eq_false : ∀ f ∈ allFields, f.1 ∉ tableFields → f.2.2.takesTables = false := by
  decide

theorem mobSpawners_mem : spare "mob_spawners" (spawners mobSpawner) ∈ allFields := by
  simp [allFields]

theorem projectileSpawners_mem :
    spare "projectile_spawners" (spawners projectileSpawner) ∈ allFields := by
  simp [allFields]

/-- A field is the only one of its key. -/
theorem field_inj {f g : String × Presence × Schema} (hf : f ∈ allFields) (hg : g ∈ allFields)
    (h : f.1 = g.1) : f = g :=
  List.inj_on_of_nodup_map (f := Prod.fst) (by decide) hf hg h

variable {patch merged : Table Value}

/-- A field that is no table stands in what is merged as it stands in the patch. -/
theorem get?_merged (hmerged : schema.Accepts (.table merged))
    (h : LaidInto (.table patch) (.table merged)) (hn : patch.keys.Nodup) {key : String}
    (hkey : key ∈ fieldKeys) (hplain : key ∉ tableFields) {v : Value}
    (hv : patch.get? key = some v) : merged.get? key = some v := by
  obtain ⟨u, hu, hentries⟩ := h.exists_table hn
  obtain rfl := Data.table.inj hu
  obtain ⟨w, hw, hvw⟩ := hentries key v hv
  obtain ⟨f, hf, rfl⟩ := List.mem_map.mp hkey
  have hfits := (Schema.accepts_record_iff.mp hmerged).1 f hf
  unfold Schema.FieldFits at hfits
  simp only [hw] at hfits
  have hno := Schema.table?_of_takesTables_eq_false (takesTables_eq_false f hf hplain) hfits
  rw [hw, hvw.eq_of_result hno]

/-- A patch conforms to its schema iff its fields are as they should be. -/
theorem patchSchema_accepts_iff :
    patchSchema.Accepts (.table patch) ↔
      (∀ f ∈ allFields, ∀ v, patch.get? f.1 = some v → f.2.2.Accepts v) ∧
        ∀ k ∈ patch.keys, k ∈ fieldKeys := by
  have hkeys : (Schema.allOptional allFields).map Prod.fst = fieldKeys := rfl
  rw [patchSchema, Schema.accepts_record_iff, hkeys, Schema.allOptional, List.forall_mem_map]
  refine and_congr_left fun _ => forall₂_congr fun f _ => ?_
  unfold Schema.FieldFits
  cases patch.get? f.1 <;> simp

/-- What is demanded of a patch beyond that it makes a sound mob: its spawners are whole, and its
behavior tree is sound by itself. -/
structure HoldsWhole (patch : Table Value) : Prop where
  mobSpawners : ∀ v, patch.get? "mob_spawners" = some v → (spawners mobSpawner).Accepts v
  projectileSpawners : ∀ v, patch.get? "projectile_spawners" = some v →
    (spawners projectileSpawner).Accepts v
  behavior : ∀ v, patch.get? "behavior" = some v → Tree.Sound v

theorem keys_patch (hmerged : schema.Accepts (.table merged))
    (h : LaidInto (.table patch) (.table merged)) (hn : patch.keys.Nodup) :
    ∀ k ∈ patch.keys, k ∈ fieldKeys := by
  intro k hk
  obtain ⟨v, hv⟩ := Table.mem_keys_iff.mp hk
  obtain ⟨u, hu, hentries⟩ := h.exists_table hn
  obtain rfl := Data.table.inj hu
  obtain ⟨w, hw, -⟩ := hentries k v hv
  exact (Schema.accepts_record_iff.mp hmerged).2 k (Table.mem_keys_iff.mpr ⟨w, hw⟩)

/-- The schema has nothing against a patch that is whole where it has to be. -/
theorem HoldsWhole.accepts (hwhole : HoldsWhole patch) (hmerged : schema.Accepts (.table merged))
    (h : LaidInto (.table patch) (.table merged)) (hn : patch.keys.Nodup) :
    patchSchema.Accepts (.table patch) := by
  refine patchSchema_accepts_iff.mpr ⟨fun f hf v hv => ?_, keys_patch hmerged h hn⟩
  by_cases htable : f.1 ∈ tableFields
  · simp only [tableFields, List.mem_cons, List.not_mem_nil, or_false] at htable
    rcases htable with hkey | hkey | hkey
    · obtain rfl := field_inj hf mobSpawners_mem hkey
      exact hwhole.mobSpawners v hv
    · obtain rfl := field_inj hf projectileSpawners_mem hkey
      exact hwhole.projectileSpawners v hv
    · rw [(behavior_free f hf hkey).2]
      exact ⟨v, rfl⟩
  · have hmem := List.mem_map_of_mem (f := Prod.fst) hf
    have hv' := get?_merged hmerged h hn hmem htable hv
    have hfits := (Schema.accepts_record_iff.mp hmerged).1 f hf
    unfold Schema.FieldFits at hfits
    simpa only [hv'] using hfits

end Definition

/-! ## The checks -/

namespace Check

open Definition

theorem errorFree_present {t : Table Value} {key : String} {place : FieldPath} (h : t.has key = true) :
    ErrorFree (present t key place) := by
  obtain ⟨v, hv⟩ := Table.mem_keys_iff.mp (Table.has_eq_true_iff.mp h)
  rw [present, hv]
  exact errorFree_nil

/-- What the checks demand of a spawner that its schema demands as well. -/
def HasSpawnerFields (required : List String) (v : Value) : Prop :=
  ∃ t : Table Value, v = .table t ∧ (∃ n, t.get? "timer" = some (.number n)) ∧
    ∀ field ∈ required, t.has field = true

/-- A record has the fields that it demands. -/
theorem hasSpawnerFields_of_accepts {required : List String}
    {fields : List (String × Presence × Schema)} (htimer : needed "timer" .number ∈ fields)
    (hrequired : ∀ key ∈ required, ∃ s, needed key s ∈ fields) {v : Value}
    (h : (Schema.record fields).Accepts v) : HasSpawnerFields required v := by
  obtain ⟨t, rfl⟩ := Schema.exists_table_of_accepts_record h
  have hfits := (Schema.accepts_record_iff.mp h).1
  have hget : ∀ {key s}, needed key s ∈ fields → ∃ v, t.get? key = some v ∧ s.Accepts v := by
    intro key s hmem
    have hfit := hfits _ hmem
    unfold Schema.FieldFits at hfit
    cases hv : t.get? key with
    | none => simp [needed, hv] at hfit
    | some v =>
      simp only [needed, hv] at hfit
      exact ⟨v, rfl, hfit⟩
  refine ⟨t, rfl, ?_, fun key hkey => ?_⟩
  · obtain ⟨v, hv, hnumber⟩ := hget htimer
    obtain ⟨n, rfl⟩ := Schema.accepts_number_iff.mp hnumber
    exact ⟨n, hv⟩
  · obtain ⟨s, hs⟩ := hrequired key hkey
    obtain ⟨v, hv, -⟩ := hget hs
    exact Table.has_eq_true_iff.mpr (Table.mem_keys_iff.mpr ⟨v, hv⟩)

/-- A spawner of a patch that has its fields has no error if the one that it makes has none. -/
theorem errorFree_spawner {required : List String} {place : FieldPath} {v w : Value}
    (h : LaidInto v w) (hv : v.WellKeyed) (hfields : HasSpawnerFields required v)
    (hw : ErrorFree (spawner required place w)) : ErrorFree (spawner required place v) := by
  obtain ⟨t, rfl, ⟨n, hn⟩, hrequired⟩ := hfields
  obtain ⟨u, rfl, hentries⟩ := h.exists_table (Data.wellKeyed_table_iff.mp hv).1
  obtain ⟨w, hw', hnw⟩ := hentries "timer" _ hn
  obtain rfl := hnw.eq_of_no_table rfl
  have htimer : t.has "timer" = true :=
    Table.has_eq_true_iff.mpr (Table.mem_keys_iff.mpr ⟨_, hn⟩)
  simp only [spawner, errorFree_append, errorFree_flatMap] at hw ⊢
  refine ⟨⟨errorFree_present htimer, ?_⟩, fun key hkey => errorFree_present (hrequired key hkey)⟩
  have hpositive := hw.1.2
  unfold entry at hpositive ⊢
  simpa only [hn, hw'] using hpositive

/-- **Spawners of a patch that are whole** have no error if those that they make have none. -/
theorem errorFree_spawners {required : List String} {item : Schema}
    (hitem : ∀ v, item.Accepts v → HasSpawnerFields required v) {place : FieldPath} {v w : Value}
    (h : LaidInto v w) (hv : v.WellKeyed) (haccepts : (Definition.spawners item).Accepts v)
    (hw : ErrorFree (spawners required place w)) : ErrorFree (spawners required place v) := by
  obtain ⟨t, rfl⟩ := Schema.exists_table_of_accepts_record haccepts
  obtain ⟨u, rfl, hentries⟩ := h.exists_table (Data.wellKeyed_table_iff.mp hv).1
  have hfit := (Schema.accepts_record_iff.mp haccepts).1 _ (List.mem_singleton.mpr rfl)
  unfold Schema.FieldFits at hfit
  cases hget : t.get? "spawners" with
  | none => simp [needed, hget] at hfit
  | some inner =>
    simp only [needed, hget] at hfit
    obtain ⟨all, rfl, hall⟩ := Schema.accepts_dictionary_iff.mp hfit
    obtain ⟨inner', hget', hinner⟩ := hentries "spawners" _ hget
    have hkeyed : WellKeyed (.table all) := hv.get? hget
    have hnodup := (Data.wellKeyed_table_iff.mp hkeyed).1
    obtain ⟨all', rfl, hspawners⟩ := hinner.exists_table hnodup
    simp only [spawners, entry, hget, hget', spawnerTable, errorFree_flatMap] at hw ⊢
    rintro ⟨key, x⟩ hx
    have hxget := Table.get?_of_mem hnodup hx
    obtain ⟨y, hy, hxy⟩ := hspawners key x hxget
    exact errorFree_spawner hxy (hkeyed.get? hxget) (hitem x (hall _ hx))
      (hw (key, y) (Table.mem_of_get? hy))

theorem hasSpawnerFields_of_mobSpawner (v : Value) (h : mobSpawner.Accepts v) :
    HasSpawnerFields ["mob_ref"] v := by
  refine hasSpawnerFields_of_accepts (by simp [spawnerFields]) ?_ h
  rw [List.forall_mem_singleton]
  exact ⟨.text, by simp⟩

theorem hasSpawnerFields_of_projectileSpawner (v : Value) (h : projectileSpawner.Accepts v) :
    HasSpawnerFields ["projectile_type", "faction"] v := by
  refine hasSpawnerFields_of_accepts (by simp [spawnerFields]) ?_ h
  rw [List.forall_mem_cons, List.forall_mem_singleton]
  exact ⟨⟨.oneOf ["Bullet", "Blast"], by simp⟩, ⟨.oneOf ["Ally", "Enemy"], by simp⟩⟩

theorem eq_of_mem_fieldChecks {key : String} {check check' : FieldPath → Value → List Remark}
    (h : (key, check) ∈ fieldChecks) (h' : (key, check') ∈ fieldChecks) : check = check' :=
  (Prod.mk.inj (List.inj_on_of_nodup_map (f := Prod.fst) (by decide) h h' rfl)).2

variable {patch merged : Table Value}

/-- The check of a field that is a table: what is merged has no error, and the patch is whole. -/
theorem errorFree_tableField (hwhole : HoldsWhole patch) {key : String}
    {check : FieldPath → Value → List Remark} (hcheck : (key, check) ∈ fieldChecks)
    (htable : key ∈ tableFields) {place : FieldPath} {v w : Value} (hv : patch.get? key = some v)
    (hkeyed : v.WellKeyed) (h : LaidInto v w) (hw : ErrorFree (check place w)) :
    ErrorFree (check place v) := by
  have hknown : ("projectile_spawners", spawners ["projectile_type", "faction"]) ∈ fieldChecks ∧
      ("mob_spawners", spawners ["mob_ref"]) ∈ fieldChecks ∧ ("behavior", node) ∈ fieldChecks := by
    simp [fieldChecks]
  obtain ⟨hprojectile, hmob, hnode⟩ := hknown
  simp only [tableFields, List.mem_cons, List.not_mem_nil, or_false] at htable
  rcases htable with rfl | rfl | rfl
  · obtain rfl := eq_of_mem_fieldChecks hcheck hmob
    exact errorFree_spawners hasSpawnerFields_of_mobSpawner h hkeyed (hwhole.mobSpawners v hv) hw
  · obtain rfl := eq_of_mem_fieldChecks hcheck hprojectile
    exact errorFree_spawners hasSpawnerFields_of_projectileSpawner h hkeyed
      (hwhole.projectileSpawners v hv) hw
  · obtain rfl := eq_of_mem_fieldChecks hcheck hnode
    exact (errorFree_node_iff place v).mpr (hwhole.behavior v hv)

/-- **The checks find no error in a patch** that is whole where it has to be, if they find none in
what it makes. -/
theorem errorFree_patch (hwhole : HoldsWhole patch) (hmerged : schema.Accepts (.table merged))
    (herrors : ErrorFree (document false (.table merged)))
    (h : LaidInto (.table patch) (.table merged)) (hkeyed : WellKeyed (.table patch)) :
    ErrorFree (document true (.table patch)) := by
  have hn := (Data.wellKeyed_table_iff.mp hkeyed).1
  obtain ⟨u, hu, hentries⟩ := h.exists_table hn
  obtain rfl := Data.table.inj hu
  have hfieldKeys : ∀ f ∈ fieldChecks, f.1 ∈ fieldKeys := by decide
  rw [errorFree_document_iff] at herrors ⊢
  obtain ⟨-, hname, hfields⟩ := herrors
  refine ⟨keys_patch hmerged h hn, ?_, ?_⟩
  · unfold name at hname ⊢
    cases hv : patch.get? "name" with
    | none => exact errorFree_nil
    | some v =>
      rw [get?_merged hmerged h hn (by decide) (by decide) hv] at hname
      cases v <;> exact hname
  · rintro ⟨key, check⟩ hf
    have hfield := hfields _ hf
    unfold entry at hfield ⊢
    cases hv : patch.get? key with
    | none => exact errorFree_nil
    | some v =>
      obtain ⟨w, hw, hvw⟩ := hentries key v hv
      simp only [hw] at hfield
      by_cases htable : key ∈ tableFields
      · exact errorFree_tableField hwhole hf htable hv (hkeyed.get? hv) hvw hfield
      · rw [get?_merged hmerged h hn (hfieldKeys _ hf) htable hv] at hw
        rw [Option.some.inj hw]
        exact hfield

end Check

/-! ## Patches that make sound mobs -/

/-- **A patch that makes a sound mob is valid iff it is whole where it has to be.** The mob that is
made of base and patch passes the checks and the schema. Then the patch can be saved if its spawners
hold all that a spawner needs and its tree is sound, and only then. -/
theorem patch_isValid_iff (s : Session) (path : String) {base patch : Table Value}
    (hpatch : WellKeyed (.table patch)) {v : Verdict} {m : Definition}
    (hchecks : validate false (.table (Value.overlay base patch)) = .ok v)
    (hvalid : v.isValid = true)
    (hread : Definition.read (nameOf defaultRoot path) (.table (Value.overlay base patch)) = .ok m) :
    (∃ w, (s.open path .patch (some base) patch).validate = .ok w ∧ w.isValid = true) ↔
      Definition.HoldsWhole patch := by
  let d : OpenDocument := .opened path .patch (some base) patch
  have hlaid := Value.laidInto_overlay base patch
  have hmerged := (Definition.read_ok_iff _).mp ⟨m, hread⟩
  have herrors := Verdict.isValid_iff.mp hvalid
  rw [remarks_of_validate hchecks] at herrors
  change d.IsValid ↔ _
  rw [OpenDocument.isValid_iff, OpenDocument.refusal?_eq_none_iff]
  constructor
  · rintro ⟨hfree, hpatchSchema, -⟩
    have hfields := (Definition.patchSchema_accepts_iff.mp hpatchSchema).1
    exact ⟨hfields _ Definition.mobSpawners_mem, hfields _ Definition.projectileSpawners_mem,
      fun tree htree => Check.sound_of_errorFree hfree htree⟩
  · intro hwhole
    exact ⟨Check.errorFree_patch hwhole hmerged herrors hlaid hpatch,
      hwhole.accepts hmerged hlaid (Data.wellKeyed_table_iff.mp hpatch).1, fun _ => hmerged⟩

/-- A patch with another tree for a small mob. -/
theorem patch_isValid_iff_orbit :
    let base : Table Value := [("name", .text "moth")]
    let patch : Table Value := [("behavior", .table [("type", .text "Orbit")])]
    let opened := (Session.start 5).open "mobs/moth.mobpatch" .patch (some base) patch
    (∃ v m, validate false (.table (Value.overlay base patch)) = .ok v ∧ v.isValid = true ∧
      Definition.read "moth" (.table (Value.overlay base patch)) = .ok m) ∧
      Definition.HoldsWhole patch ∧ ∃ w, opened.validate = .ok w ∧ w.isValid = true := by
  intro base patch opened
  have hpatch : WellKeyed (.table patch) := by
    simp [patch, WellKeyed, Data.EntriesWellKeyed, Table.keys]
  have hchecks : validate false (.table (Value.overlay base patch)) =
      .ok ⟨[⟨[.key "behavior", .key "type"], .unknownType "Orbit"⟩]⟩ := rfl
  have hread : ∃ m, Definition.read "moth" (.table (Value.overlay base patch)) = .ok m := ⟨_, rfl⟩
  obtain ⟨m, hm⟩ := hread
  have hiff := patch_isValid_iff (Session.start 5) "mobs/moth.mobpatch" hpatch hchecks rfl hm
  have hopened : ∃ w, opened.validate = .ok w ∧ w.isValid = true := ⟨_, rfl, rfl⟩
  exact ⟨⟨_, m, hchecks, rfl, hm⟩, hiff.mp hopened, hopened⟩

/-! ## A part of a spawner -/

/-- A mob with one spawner. -/
def brooder (nest : Table Value) : Table Value :=
  [("name", .text "moth"), ("mob_spawners", .table [("spawners", .table [("nest", .table nest)])])]

/-- A spawner with all that it needs. -/
def wholeNest (timer : Number) : Table Value :=
  [("timer", .number timer), ("position", .list [.number .zero, .number .zero]),
    ("rotation", .number .zero), ("mob_ref", .text "wing")]

/-- A patch with the timer of the spawner, and nothing else of it. -/
def timerPatch (timer : Number) : Table Value :=
  [("mob_spawners",
    .table [("spawners", .table [("nest", .table [("timer", .number timer)])])])]

/-- The mob that the patch makes is the one with the other timer. -/
theorem overlay_timerPatch (timer timer' : Number) :
    Value.overlay (brooder (wholeNest timer)) (timerPatch timer') = brooder (wholeNest timer') := rfl

/-- The checks have nothing against a whole spawner with a timer that runs forward, and of a part of
it they miss the rest. -/
theorem spawner_wholeNest {timer : Number} (h : ¬timer ≤ .zero) (place : FieldPath) :
    Check.spawner ["mob_ref"] place (.table (wholeNest timer)) = [] := by
  have hpositive : ∀ place, Check.positive place (.number timer) = [] := fun _ => if_neg h
  change (([] ++ Check.positive _ (.number timer)) ++ [] : List Remark) = []
  rw [hpositive]
  rfl

theorem spawner_timer {timer : Number} (h : ¬timer ≤ .zero) (place : FieldPath) :
    Check.spawner ["mob_ref"] place (.table [("timer", .number timer)]) =
      Check.remark place (.lacks "mob_ref") := by
  have hpositive : ∀ place, Check.positive place (.number timer) = [] := fun _ => if_neg h
  change ([] ++ Check.positive _ (.number timer)) ++ (Check.remark place (.lacks "mob_ref") ++ []) = _
  rw [hpositive]
  rfl

theorem validate_brooder {timer : Number} (h : ¬timer ≤ .zero) :
    validate false (.table (brooder (wholeNest timer))) = .ok ⟨[]⟩ := by
  have hremarks : Check.document false (.table (brooder (wholeNest timer))) = [] := by
    change [] ++ (Check.spawner ["mob_ref"] _ (.table (wholeNest timer)) ++ []) ++ [] =
      ([] : List Remark)
    rw [spawner_wholeNest h]
    rfl
  rw [validate, hremarks]
  rfl

theorem validate_timerPatch {timer : Number} (h : ¬timer ≤ .zero) :
    validate true (.table (timerPatch timer)) =
      .ok ⟨[⟨[.key "mob_spawners", .key "spawners", .key "nest"], .lacks "mob_ref"⟩]⟩ := by
  have hremarks : Check.document true (.table (timerPatch timer)) =
      [⟨[.key "mob_spawners", .key "spawners", .key "nest"], .lacks "mob_ref"⟩] := by
    change [] ++ (Check.spawner ["mob_ref"] _ (.table [("timer", .number timer)]) ++ []) ++ [] = _
    rw [spawner_timer h]
    rfl
  rw [validate, hremarks]
  rfl

/-- A patch with nothing but another timer for a spawner makes a sound mob, but it is refused. -/
theorem timerPatch_refused :
    let base := brooder (wholeNest (.ofSmall 1))
    let patch := timerPatch (.ofSmall 2)
    (∃ v, validate false (.table (Value.overlay base patch)) = .ok v ∧ v.isValid = true) ∧
      (∃ m, Definition.read "moth" (.table (Value.overlay base patch)) = .ok m) ∧
      ∃ w, ((Session.start 5).open "mobs/moth.mobpatch" .patch (some base) patch).validate =
        .ok w ∧ w.isValid = false := by
  intro base patch
  have hpositive : ¬Number.ofSmall 2 ≤ .zero := by decide +kernel
  have hread : ∀ timer, ∃ m, Definition.read "moth" (.table (brooder (wholeNest timer))) = .ok m :=
    fun timer => ⟨_, rfl⟩
  have hrefused : ((Session.start 5).open "mobs/moth.mobpatch" .patch (some base) patch).validate =
      .ok ⟨[⟨[.key "mob_spawners", .key "spawners", .key "nest"], .lacks "mob_ref"⟩]⟩ := by
    change OpenDocument.validate (.opened "mobs/moth.mobpatch" .patch (some base) patch) = _
    rw [OpenDocument.validate]
    simp only [OpenDocument.opened, decide_true, patch, validate_timerPatch hpositive]
    rfl
  rw [overlay_timerPatch]
  exact ⟨⟨_, validate_brooder hpositive, rfl⟩, hread _, _, hrefused, rfl⟩

end Bestiary
