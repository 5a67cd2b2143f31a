import Bestiary.Proofs.Mob.Layers
import Mathlib

/-!
# Resolutions, name by name

What a resolution holds under a name comes from the files of that name alone, and the order in
which files are listed does not matter.

* `Resolution.Holds` says what a resolution holds under a name with a given definition.
* `resolve_holds`: it holds what the files of the name define, and files of other names change
  nothing about it.
* `resolve_eq_of_perm`: files with different paths may be listed in any order.
-/

namespace Bestiary

/-! ## Looking entries up -/

/-- What is found under a key of a table made entry by entry. -/
theorem Table.get?_filterMap {α β : Type} {t : Table α} (hn : t.keys.Nodup)
    (f : String → α → Option β) (key : String) :
    Table.get? (t.filterMap fun e => (f e.1 e.2).map fun b => (e.1, b)) key =
      (t.get? key).bind (f key) := by
  induction t with
  | nil => rfl
  | cons e t ih =>
    obtain ⟨k, a⟩ := e
    rw [Table.keys_cons, List.nodup_cons] at hn
    rw [List.filterMap_cons, Table.get?_cons]
    by_cases hk : k = key
    · subst hk
      have hnone : Table.get? t k = none := Table.get?_eq_none_iff.mpr hn.1
      rw [if_pos rfl, Option.bind_some]
      cases hf : f k a with
      | none => simp [ih hn.2, hnone]
      | some b => simp
    · rw [if_neg hk, ← ih hn.2]
      cases f k a with
      | none => rfl
      | some b => simp [hk]

namespace Layered

variable (l : Layered)

/-- The merged definitions are those of the names in order. -/
theorem keys_values : l.values.keys = Text.sort l.tables.keys := by
  have hkeys : ∀ names : List String, (∀ name ∈ names, name ∈ l.tables.keys) →
      Table.keys (names.filterMap fun name => (l.tables.get? name).map fun t => (name, t)) =
        names := by
    intro names hnames
    induction names with
    | nil => rfl
    | cons name names ih =>
      rw [List.forall_mem_cons] at hnames
      obtain ⟨t, ht⟩ := Table.mem_keys_iff.mp hnames.1
      rw [List.filterMap_cons, ht, Option.map_some, Table.keys_cons, ih hnames.2]
  exact hkeys _ fun name hname => (Text.sort_perm _).mem_iff.mp hname

theorem nodup_values (h : l.tables.keys.Nodup) : l.values.keys.Nodup := by
  rw [keys_values]
  exact (Text.sort_perm _).nodup_iff.mpr h

/-- Putting the merged definitions in order changes none of them. -/
theorem get?_values (name : String) : l.values.get? name = l.tables.get? name := by
  have hget : ∀ names : List String,
      Table.get? (names.filterMap fun name => (l.tables.get? name).map fun t => (name, t)) name =
        if name ∈ names then l.tables.get? name else none := by
    intro names
    induction names with
    | nil => rfl
    | cons other names ih =>
      rw [List.filterMap_cons]
      by_cases hname : other = name
      · subst hname
        cases ht : l.tables.get? other with
        | none => simpa [ht] using ih
        | some t => simp
      · cases l.tables.get? other with
        | none => simp [ih, Ne.symm hname]
        | some t => simp [ih, hname, Ne.symm hname]
  refine (hget _).trans ?_
  split
  · rfl
  · rename_i hname
    rw [(Text.sort_perm _).mem_iff] at hname
    exact (Table.get?_eq_none_iff.mpr hname).symm

end Layered

namespace Definition

/-- An issue with a definition names its entity. -/
theorem entity_of_read {entity : String} {v : Value} {e : DefinitionError}
    (h : read entity v = .error e) : e.entity = entity := by
  unfold read readBy at h
  split at h
  · exact absurd h (by simp)
  · rw [← Except.error.inj h]

end Definition

namespace Resolution

/-! ## Mobs and failures -/

variable {values : Table (Table Value)}

theorem conforming_cons (name : String) (t : Table Value) (values : Table (Table Value)) :
    conforming ((name, t) :: values) =
      match Definition.read name (.table t) with
      | .ok m => (name, m) :: conforming values
      | .error _ => conforming values := by
  cases hread : Definition.read name (.table t) <;> simp [conforming, hread]

theorem issues_cons (name : String) (t : Table Value) (values : Table (Table Value)) :
    issues ((name, t) :: values) =
      match Definition.read name (.table t) with
      | .ok _ => issues values
      | .error e => e :: issues values := by
  cases hread : Definition.read name (.table t) <;> simp [issues, hread]

theorem get?_conforming (h : values.keys.Nodup) (name : String) :
    (conforming values).get? name =
      (values.get? name).bind fun t => (Definition.read name (.table t)).toOption := by
  refine Eq.trans ?_ (Table.get?_filterMap h
    (fun name t => (Definition.read name (.table t)).toOption) name)
  unfold conforming
  congr 2
  funext ⟨name, t⟩
  simp only
  cases Definition.read name (.table t) <;> rfl

/-- The issues that name an entity: one if there is a definition that does not conform. -/
theorem filter_issues (h : values.keys.Nodup) (name : String) :
    (issues values).filter (fun e => e.entity = name) =
      match (values.get? name).map fun t => Definition.read name (.table t) with
      | some (.error e) => [e]
      | _ => [] := by
  induction values with
  | nil => rfl
  | cons entry values ih =>
    obtain ⟨k, t⟩ := entry
    rw [Table.keys_cons, List.nodup_cons] at h
    have hrest := ih h.2
    rw [issues_cons, Table.get?_cons]
    by_cases hk : k = name
    · subst hk
      rw [Table.get?_eq_none_iff.mpr h.1] at hrest
      rw [if_pos rfl, Option.map_some]
      cases hread : Definition.read k (.table t) with
      | ok m => simpa [hread] using hrest
      | error e => simpa [hread, Definition.entity_of_read hread] using hrest
    · rw [if_neg hk, ← hrest]
      cases hread : Definition.read k (.table t) with
      | ok m => rfl
      | error e => simp [Definition.entity_of_read hread, hk]

/-! ## What is held under a name -/

/-- **What a resolution holds under a name**: without a definition nothing at all; else the
definition and, if it conforms to the schema, the mob that it is, or the one issue with it. -/
def Holds (r : Resolution) (name : String) : Option Value → Prop
  | none =>
    r.values.get? name = none ∧ r.mobs.get? name = none ∧
      r.failures.filter (fun e => e.entity = name) = []
  | some v =>
    (r.values.get? name).map .table = some v ∧
      match Definition.read name v with
      | .ok m => r.mobs.get? name = some m ∧ r.failures.filter (fun e => e.entity = name) = []
      | .error e => r.mobs.get? name = none ∧ r.failures.filter (fun e => e.entity = name) = [e]

/-- The resolution of layers holds what they have under each name. -/
theorem holds_ofLayered {l : Layered} (h : l.tables.keys.Nodup) (name : String) :
    (ofLayered l).Holds name ((l.tables.get? name).map .table) := by
  have hmob := get?_conforming (l.nodup_values h) name
  have hfailure := filter_issues (l.nodup_values h) name
  rw [l.get?_values] at hmob hfailure
  cases ht : l.tables.get? name with
  | none =>
    rw [ht] at hmob hfailure
    exact ⟨(l.get?_values name).trans ht, hmob, hfailure⟩
  | some t =>
    rw [ht] at hmob hfailure
    refine ⟨congrArg (Option.map Data.table) ((l.get?_values name).trans ht), ?_⟩
    rw [Option.map_some, Option.bind_some] at *
    cases hread : Definition.read name (.table t) with
    | ok m =>
      rw [hread] at hmob hfailure
      exact ⟨hmob, hfailure⟩
    | error e =>
      rw [hread] at hmob hfailure
      exact ⟨hmob, hfailure⟩

/-- A mob under a name is what the definition under that name is read as. -/
theorem Holds.exists_read {r : Resolution} {name : String} {definition : Option Value}
    {m : Definition} (h : r.Holds name definition) (hm : r.mobs.get? name = some m) :
    ∃ t, definition = some (.table t) ∧ r.values.get? name = some t ∧
      Definition.read name (.table t) = .ok m := by
  cases definition with
  | none => exact absurd (hm.symm.trans h.2.1) (by simp)
  | some v =>
    obtain ⟨hvalue, hread⟩ := h
    obtain ⟨t, ht, rfl⟩ := Option.map_eq_some_iff.mp hvalue
    refine ⟨t, rfl, ht, ?_⟩
    cases hv : Definition.read name (.table t) with
    | error e =>
      rw [hv] at hread
      exact absurd (hm.symm.trans hread.1) (by simp)
    | ok m' =>
      rw [hv] at hread
      rw [Option.some.inj (hm.symm.trans hread.1)]

/-- Two resolutions hold the same under a name. -/
structure SameUnder (r r' : Resolution) (name : String) : Prop where
  value : r'.values.get? name = r.values.get? name
  mob : r'.mobs.get? name = r.mobs.get? name
  failures : r'.failures.filter (fun e => e.entity = name) =
    r.failures.filter (fun e => e.entity = name)

/-- What is held under a name is determined by its definition. -/
theorem Holds.sameUnder {r r' : Resolution} {name : String} {definition : Option Value}
    (h : r.Holds name definition) (h' : r'.Holds name definition) : r.SameUnder r' name := by
  cases definition with
  | none =>
    obtain ⟨hvalue, hmob, hfailure⟩ := h
    obtain ⟨hvalue', hmob', hfailure'⟩ := h'
    exact ⟨hvalue'.trans hvalue.symm, hmob'.trans hmob.symm, hfailure'.trans hfailure.symm⟩
  | some v =>
    obtain ⟨hvalue, hread⟩ := h
    obtain ⟨hvalue', hread'⟩ := h'
    have hinj : Function.Injective (Data.table : Table Value → Value) := fun _ _ => Data.table.inj
    have hvalues := Option.map_injective hinj (hvalue'.trans hvalue.symm)
    cases hv : Definition.read name v with
    | ok m =>
      rw [hv] at hread hread'
      exact ⟨hvalues, hread'.1.trans hread.1.symm, hread'.2.trans hread.2.symm⟩
    | error e =>
      rw [hv] at hread hread'
      exact ⟨hvalues, hread'.1.trans hread.1.symm, hread'.2.trans hread.2.symm⟩

end Resolution

/-! ## The files of a name -/

/-- Two sources have the same files of a name, listed in the same order. -/
structure Sources.SameFiles (s s' : Sources) (root name : String) : Prop where
  base : filesNamed root name s'.base = filesNamed root name s.base
  extended : filesNamed root name s'.extended = filesNamed root name s.extended
  patches : filesNamed root name s'.patches = filesNamed root name s.patches

theorem Sources.SameFiles.definition?_eq {s s' : Sources} {root name : String}
    (h : s.SameFiles s' root name) : s'.definition? root name = s.definition? root name := by
  unfold Sources.definition?
  simp only [h.base, h.extended, h.patches]

/-- Base files that can all be read give the base layer. -/
theorem exists_readBase (root : String) {files : List SourceFile}
    (h : ∀ f ∈ files, ∃ t, f.parse = .ok t) : ∃ tables, readBase root files = .ok tables := by
  simp only [readBase, Except.mapM_eq_ok_iff]
  induction files with
  | nil => exact ⟨[], .nil⟩
  | cons f files ih =>
    rw [List.forall_mem_cons] at h
    obtain ⟨⟨t, ht⟩, hfiles⟩ := h
    obtain ⟨tables, htables⟩ := ih hfiles
    exact ⟨(nameOf root f.path, t) :: tables, .cons (by rw [ht]) htables⟩

/-- Sources with base files that can all be read are resolved. -/
theorem exists_resolve (root : String) {s : Sources} (hbase : ∀ f ∈ s.base, ∃ t, f.parse = .ok t) :
    ∃ r, resolve root s = .ok r ∧ ∀ name, r.Holds name (s.definition? root name) := by
  obtain ⟨tables, htables⟩ := exists_readBase root fun f (hf : f ∈ byPath s.base) =>
    hbase f ((byPath_perm s.base).mem_iff.mp hf)
  have hlayer := Layered.layer_eq_ok_iff.mpr ⟨tables, htables, rfl⟩
  refine ⟨.ofLayered _, by rw [resolve, hlayer], fun name => ?_⟩
  rw [← Layered.get?_layer hlayer]
  exact Resolution.holds_ofLayered (Layered.nodup_layer hlayer) name

/-- **A resolution holds under each name what the files of the name define**, and nothing else:
files of other names change nothing about it. -/
theorem resolve_holds (root : String) {s : Sources}
    (hbase : ∀ f ∈ s.base, ∃ t, f.parse = .ok t) :
    ∃ r, resolve root s = .ok r ∧ (∀ name, r.Holds name (s.definition? root name)) ∧
      ∀ (s' : Sources) (name : String), (∀ f ∈ s'.base, ∃ t, f.parse = .ok t) →
        s.SameFiles s' root name → ∃ r', resolve root s' = .ok r' ∧ r.SameUnder r' name := by
  obtain ⟨r, hr, hholds⟩ := exists_resolve root hbase
  refine ⟨r, hr, hholds, fun s' name hbase' hsame => ?_⟩
  obtain ⟨r', hr', hholds'⟩ := exists_resolve root hbase'
  have hholds' := hholds' name
  rw [hsame.definition?_eq] at hholds'
  exact ⟨r', hr', (hholds name).sameUnder hholds'⟩

/-- A mob beside another, with an extended file that cannot be read and a patch, and then with a
third mob in the place of the other one. -/
theorem resolve_holds_moon :
    let file (path text : String) : SourceFile := ⟨path, .text text⟩
    let moon := file "mobs/moon.mob" "name = \"moon\"\n"
    let patches := [file "mobs/moon.mobpatch" "health = 3\n"]
    let s : Sources := ⟨[file "mobs/sun.mob" "", moon], [file "mobs/moon.mob" "name ="], patches⟩
    let s' : Sources := ⟨[moon, file "mobs/star.mob" ""], s.extended, patches⟩
    (∀ f ∈ s.base, ∃ t, f.parse = .ok t) ∧ (∀ f ∈ s'.base, ∃ t, f.parse = .ok t) ∧
      s.SameFiles s' "mobs/" "moon" ∧
      ∃ r r', resolve "mobs/" s = .ok r ∧ r.Holds "moon" (s.definition? "mobs/" "moon") ∧
        resolve "mobs/" s' = .ok r' ∧ r.SameUnder r' "moon" := by
  intro file moon patches s s'
  have hmoon : ∃ t, moon.parse = .ok t := ⟨[("name", .text "moon")], by cbv⟩
  have hbase : ∀ f ∈ s.base, ∃ t, f.parse = .ok t := by
    rw [List.forall_mem_cons, List.forall_mem_singleton]
    exact ⟨⟨[], by cbv⟩, hmoon⟩
  have hbase' : ∀ f ∈ s'.base, ∃ t, f.parse = .ok t := by
    rw [List.forall_mem_cons, List.forall_mem_singleton]
    exact ⟨hmoon, ⟨[], by cbv⟩⟩
  have hsame : s.SameFiles s' "mobs/" "moon" := ⟨by cbv, by cbv, by cbv⟩
  obtain ⟨r, hr, hholds, hother⟩ := resolve_holds "mobs/" hbase
  obtain ⟨r', hr', hunder⟩ := hother s' "moon" hbase' hsame
  exact ⟨hbase, hbase', hsame, r, r', hr, hholds "moon", hr', hunder⟩

/-! ## The order in which files are listed -/

/-- **Files with different paths may be listed in any order**: what comes of them is the same, with
all definitions, mobs, failures and warnings in the same order, or the same refusal. -/
theorem resolve_eq_of_perm (root : String) {s s' : Sources} (hbase : s.base.Perm s'.base)
    (hextended : s.extended.Perm s'.extended) (hpatches : s.patches.Perm s'.patches)
    (hbaseDistinct : (s.base.map SourceFile.path).Nodup)
    (hextendedDistinct : (s.extended.map SourceFile.path).Nodup)
    (hpatchesDistinct : (s.patches.map SourceFile.path).Nodup) :
    resolve root s = resolve root s' := by
  unfold resolve layer
  rw [byPath_eq_of_perm hbase hbaseDistinct, byPath_eq_of_perm hextended hextendedDistinct,
    byPath_eq_of_perm hpatches hpatchesDistinct]

/-- Two base files of one name, an extended file and two patches of it, listed in two orders. -/
theorem resolve_eq_of_perm_moon :
    let file (path text : String) : SourceFile := ⟨path, .text text⟩
    let a := file "mobs/moon.mob" "name = \"moon\"\n"
    let b := file "moon.mob" "name = \"other moon\"\n"
    let c := file "mobs/sun.mob" "name ="
    let p := file "mobs/moon.mobpatch" "health = 3\n"
    let q := file "moon.mobpatch" "health = 4\n"
    resolve "mobs/" ⟨[a, b], [c], [p, q]⟩ = resolve "mobs/" ⟨[b, a], [c], [q, p]⟩ := by
  intro file a b c p q
  exact resolve_eq_of_perm "mobs/" (.swap b a []) (.refl [c]) (.swap q p []) (by decide)
    (by decide) (by decide)

end Bestiary
