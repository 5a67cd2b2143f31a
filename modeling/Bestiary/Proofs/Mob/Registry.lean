import Bestiary.Mob.Registry
import Bestiary.Proofs.Mob.Account
import Bestiary.Proofs.Mob.Written
import Bestiary.Proofs.Text.Cut

/-!
# Looking mobs up

A reference is brought to a name before it is looked up. A name that was brought to itself finds its
own mob; one below a folder that is called like the root, or with an extension left at its end, is
cut once more and finds another mob, or none. The references of joints were cut below the default
root when they were read, whatever the root of the registry is.

* `nameOf_eq_self_iff` says which names are left alone.
* `Registry.get?_compileAll`: the compiled trees are those of the mobs.
* `Definition.jointRefs_of_read`: what becomes of the references of joints.
* `Registry.reaches_of_resolve` says which ways of naming a mob lead to it.
-/

namespace Bestiary

/-! ## Names that are left alone -/

theorem length_withoutExtension_le (path : String) :
    (withoutExtension path).length ≤ path.length := by
  unfold withoutExtension
  split
  · rename_i name hname
    have := Text.length_of_withoutEnd? hname
    omega
  · cases hpatch : Text.withoutEnd? patchExtension path with
    | none => exact Nat.le_refl _
    | some name =>
      have := Text.length_of_withoutEnd? hpatch
      rw [Option.getD_some]
      omega

/-- A path without an extension is left alone. -/
theorem withoutExtension_eq_self_iff {path : String} :
    withoutExtension path = path ↔
      Text.endsIn mobExtension path = false ∧ Text.endsIn patchExtension path = false := by
  rw [← Text.withoutEnd?_eq_none_iff, ← Text.withoutEnd?_eq_none_iff]
  have hshorter : ∀ {stop name : String}, 0 < stop.length →
      Text.withoutEnd? stop path = some name → name ≠ path := by
    rintro stop name hstop hname rfl
    have := Text.length_of_withoutEnd? hname
    omega
  unfold withoutExtension
  cases hmob : Text.withoutEnd? mobExtension path with
  | some name => simpa using hshorter (by decide) hmob
  | none =>
    cases hpatch : Text.withoutEnd? patchExtension path with
    | some name => simpa using hshorter (by decide) hpatch
    | none => simp

/-- **A name is left alone** iff it neither stands below the root once more nor ends in an
extension. -/
theorem nameOf_eq_self_iff {root ref : String} :
    nameOf root ref = ref ↔
      (root = "" ∨ Text.withoutStart? root ref = none) ∧
        Text.endsIn mobExtension ref = false ∧ Text.endsIn patchExtension ref = false := by
  unfold nameOf
  cases hroot : Text.withoutStart? root ref with
  | none => simp [withoutExtension_eq_self_iff]
  | some rest =>
    have hlength := Text.length_of_withoutStart? hroot
    by_cases hempty : root = ""
    · subst hempty
      have hrest : rest = ref := by
        simpa using Text.append_of_withoutStart? hroot
      simp [hrest, withoutExtension_eq_self_iff]
    · have hpos : root.length ≠ 0 := by
        simpa using hempty
      have hne : withoutExtension rest ≠ ref := by
        intro heq
        have := length_withoutExtension_le rest
        rw [heq] at this
        omega
      simp [hne, hempty]

/-! ## Compiled trees -/

namespace Registry

theorem get?_compileAll {mobs : Table Definition} (h : mobs.keys.Nodup) (name : String) :
    (compileAll mobs).get? name =
      (mobs.get? name).bind fun m => m.behavior.map Node.compile := by
  refine Eq.trans ?_ (Table.get?_filterMap h (fun _ m => m.behavior.map Node.compile) name)
  unfold compileAll
  congr 2
  funext ⟨name, m⟩
  exact (Option.map_map _ _ _).symm

/-- The plan that a reference leads to is that of the mob that it leads to. -/
theorem plan?_build {r : Resolution} (h : r.mobs.keys.Nodup) (root ref : String) :
    (build root r).plan? ref =
      ((build root r).find? ref).bind fun m => m.behavior.map Node.plan := by
  unfold plan? find?
  rw [show (build root r).compiled = compileAll r.mobs from rfl, get?_compileAll h,
    Option.map_bind]
  refine congrArg _ (funext fun m => ?_)
  exact Option.map_map _ _ _

theorem mem_names_iff {r : Registry} {name : String} :
    name ∈ r.names ↔ ∃ m, r.mobs.get? name = some m := by
  rw [names, (Text.sort_perm _).mem_iff, Table.mem_keys_iff]

theorem contains_build_iff {root : String} {r : Resolution} {ref : String} :
    (build root r).contains ref = true ↔ nameOf root ref ∈ (build root r).names := by
  rw [mem_names_iff, contains, Option.isSome_iff_exists]
  rfl

/-- **A reference leads to the mob under a name**: it is there, and so are its definition and the
plan of its tree, if it has one. -/
structure Reaches (r : Registry) (ref name : String) : Prop where
  contains : r.contains ref = true
  mob : r.find? ref = r.mobs.get? name
  plan : r.plan? ref = (r.mobs.get? name).bind fun m => m.behavior.map Node.plan

/-- A reference leads to a mob that is there iff the same is found under its name. -/
theorem reaches_iff {r : Resolution} (h : r.mobs.keys.Nodup) {root ref name : String}
    (hname : name ∈ (build root r).names) :
    (build root r).Reaches ref name ↔ r.mobs.get? (nameOf root ref) = r.mobs.get? name := by
  obtain ⟨m, hm⟩ := mem_names_iff.mp hname
  constructor
  · exact fun hreaches => hreaches.mob
  · intro heq
    have hfind : (build root r).find? ref = (build root r).mobs.get? name := heq
    refine ⟨?_, hfind, by rw [plan?_build h, hfind]⟩
    rw [Registry.contains, hfind, hm]
    rfl

end Registry

/-! ## Where names come from -/

/-- A name with a definition is the name of a base file or an extended file. -/
theorem Sources.exists_file_of_definition? {s : Sources} {root name : String} {v : Value}
    (h : s.definition? root name = some v) :
    ∃ f ∈ s.base ++ s.extended, nameOf root f.path = name := by
  have hfile : ∀ {files : List SourceFile} {t : Table Value},
      (tablesIn (byPath (filesNamed root name files))).getLast? = some t →
        ∃ f ∈ files, nameOf root f.path = name := by
    intro files t ht
    obtain ⟨f, hf, -⟩ := List.mem_filterMap.mp (List.mem_of_getLast? ht)
    rw [(byPath_perm _).mem_iff, filesNamed, List.mem_filter, decide_eq_true_iff] at hf
    exact ⟨f, hf⟩
  obtain ⟨start, hstart, -⟩ := Option.map_eq_some_iff.mp h
  rw [Option.or_eq_some_iff] at hstart
  rcases hstart with hextended | ⟨-, hbase⟩
  · obtain ⟨f, hf, hname⟩ := hfile hextended
    exact ⟨f, List.mem_append_right _ hf, hname⟩
  · obtain ⟨f, hf, hname⟩ := hfile hbase
    exact ⟨f, List.mem_append_left _ hf, hname⟩

namespace Resolution

variable {root : String} {s : Sources} {r : Resolution}

theorem exists_layer_of_resolve (h : resolve root s = .ok r) :
    ∃ l, layer root s = .ok l ∧ ofLayered l = r := by
  unfold resolve at h
  cases hlayer : layer root s with
  | error e =>
    rw [hlayer] at h
    cases h
  | ok l =>
    rw [hlayer] at h
    exact ⟨l, rfl, Except.ok.inj h⟩

/-- A resolution of sources holds what they define. -/
theorem holds_of_resolve (h : resolve root s = .ok r) (name : String) :
    r.Holds name (s.definition? root name) := by
  obtain ⟨l, hlayer, rfl⟩ := exists_layer_of_resolve h
  rw [← Layered.get?_layer hlayer]
  exact holds_ofLayered (Layered.nodup_layer hlayer) name

theorem nodup_mobs_of_resolve (h : resolve root s = .ok r) : r.mobs.keys.Nodup := by
  obtain ⟨l, hlayer, rfl⟩ := exists_layer_of_resolve h
  exact (keys_conforming_sublist _).nodup (l.nodup_values (Layered.nodup_layer hlayer))

end Resolution

/-! ## References of joints -/

namespace Definition

/-- The references of the joints in a table. -/
def refsIn (t : Table Value) : List String :=
  (((t.get? "jointed_mobs").bind Data.list?).getD []).filterMap fun joint =>
    (joint.field? "mob_ref").bind Data.text?

theorem jointRefs_eq (m : Definition) : m.jointRefs = refsIn m.fields := rfl

/-- A joint is read with its reference brought to the name. -/
theorem ref_of_read_joint {v w : Value} (h : joint.read v = .accepted w) :
    ∃ ref, (v.field? "mob_ref").bind Data.text? = some ref ∧
      (w.field? "mob_ref").bind Data.text? = some (nameOf defaultRoot ref) := by
  obtain ⟨entries, rfl⟩ := Schema.exists_table_of_accepts_record ⟨w, h⟩
  obtain ⟨t, ht, -, rfl⟩ := Schema.read_record_eq_accepted_iff.mp h
  have hget := Schema.get?_of_readFields (by decide) (.tail _ (.head _)) ht
  simp only [Data.field?, Data.table?, Option.bind_some]
  cases hentry : entries.get? "mob_ref" with
  | none =>
    simp only [hentry] at hget
    obtain ⟨part, hpart, -⟩ := hget
    cases hpart
  | some ref =>
    simp only [hentry] at hget
    obtain ⟨name, hname, hnameGet⟩ := hget
    obtain ⟨s, rfl⟩ := Schema.exists_text_of_accepts_mobRef ⟨name, hname⟩
    obtain rfl := Outcome.accepted.inj hname
    rw [hnameGet]
    exact ⟨s, rfl, rfl⟩

theorem filterMap_of_forall₂ {α β γ : Type} {R : α → β → Prop} {f : α → Option γ}
    {g : β → Option γ} {k : γ → γ} (hR : ∀ a b, R a b → ∃ c, f a = some c ∧ g b = some (k c))
    {l : List α} {l' : List β} (h : List.Forall₂ R l l') :
    l'.filterMap g = (l.filterMap f).map k := by
  induction h with
  | nil => rfl
  | @cons a b _ _ hab _ ih =>
    obtain ⟨c, hf, hg⟩ := hR a b hab
    rw [List.filterMap_cons_some hf, List.filterMap_cons_some hg, List.map_cons, ih]

/-- **The references of joints are brought to names** below the default root, one by one. -/
theorem jointRefs_of_read {entity : String} {t : Table Value} {m : Definition}
    (h : read entity (.table t) = .ok m) : m.jointRefs = (refsIn t).map (nameOf defaultRoot) := by
  obtain ⟨entries, hentries, -, hown, -⟩ := read_eq_ok_iff.mp h
  obtain rfl := Data.table.inj hentries
  have hfield : preset "jointed_mobs" (.list joint) (.list []) ∈ ownFields := by
    simp [ownFields, allFields]
  have hget := Schema.get?_of_readFields (by decide) hfield hown
  rw [jointRefs_eq, refsIn, refsIn]
  cases hjoints : t.get? "jointed_mobs" with
  | none =>
    simp only [hjoints] at hget
    obtain ⟨part, hpart, hpartGet⟩ := hget
    obtain rfl := Outcome.accepted.inj hpart
    rw [hpartGet]
    rfl
  | some joints =>
    simp only [hjoints] at hget
    obtain ⟨joints', hread, hjointsGet⟩ := hget
    rw [hjointsGet]
    cases joints with
    | list items =>
      rw [Schema.read] at hread
      obtain ⟨items', hitems, rfl⟩ := Outcome.map_eq_accepted_iff.mp hread
      refine filterMap_of_forall₂ ?_ (Schema.forall₂_of_readItems hitems)
      exact fun _ _ => ref_of_read_joint
    | _ => exact absurd hread (by simp [Schema.read, Schema.wrongKind])

end Definition

/-! ## Ways of naming a mob -/

namespace Registry

/-- **Which ways of naming a mob lead to it.** In a resolution and the registry of it, below one
root: every name is that of a file, and the path of the file leads to the mob. A name leads to its
mob iff the same is found under what it is cut to, so every name that is left alone does. The
references of joints are those that were authored, brought to names below the default root; a
reference that was such a name leads where it did, and so does, below the default root itself, every
reference with a name that is left alone. -/
theorem reaches_of_resolve {root : String} {s : Sources} {r : Resolution}
    (h : resolve root s = .ok r) :
    let reg := build root r
    (∀ k ∈ reg.spawnable, k ∈ reg.names) ∧
    (∀ k ∈ reg.names,
      (∃ f ∈ s.base ++ s.extended, nameOf root f.path = k ∧ reg.Reaches f.path k) ∧
      (reg.Reaches k k ↔ r.mobs.get? (nameOf root k) = r.mobs.get? k) ∧
      (nameOf root k = k → reg.Reaches k k)) ∧
    ∀ name t m, r.values.get? name = some t → r.mobs.get? name = some m →
      m.jointRefs = (Definition.refsIn t).map (nameOf defaultRoot) ∧
      ∀ ref ∈ Definition.refsIn t,
        nameOf defaultRoot ref = ref ∨
            root = defaultRoot ∧ nameOf root (nameOf root ref) = nameOf root ref →
          reg.find? (nameOf defaultRoot ref) = reg.find? ref ∧
            reg.plan? (nameOf defaultRoot ref) = reg.plan? ref := by
  intro reg
  have hholds := Resolution.holds_of_resolve h
  have hnodup := Resolution.nodup_mobs_of_resolve h
  refine ⟨fun k hk => (List.mem_filter.mp hk).1, fun k hk => ⟨?_, reaches_iff hnodup hk, ?_⟩, ?_⟩
  · obtain ⟨m, hm⟩ := mem_names_iff.mp hk
    obtain ⟨t, hdefinition, -, -⟩ := (hholds k).exists_read hm
    obtain ⟨f, hf, hname⟩ := Sources.exists_file_of_definition? hdefinition
    refine ⟨f, hf, hname, (reaches_iff hnodup hk).mpr ?_⟩
    rw [hname]
  · intro hname
    refine (reaches_iff hnodup hk).mpr ?_
    rw [hname]
  · intro name t m ht hm
    obtain ⟨t', -, ht', hread⟩ := (hholds name).exists_read hm
    obtain rfl : t = t' := Option.some.inj (ht.symm.trans ht')
    refine ⟨Definition.jointRefs_of_read hread, fun ref _ href => ?_⟩
    have hnames : nameOf root (nameOf defaultRoot ref) = nameOf root ref := by
      rcases href with href | ⟨rfl, href⟩
      · rw [href]
      · exact href
    have hfind : reg.find? (nameOf defaultRoot ref) = reg.find? ref :=
      congrArg (Table.get? _) hnames
    exact ⟨hfind, by rw [plan?_build hnodup, plan?_build hnodup, hfind]⟩

/-- A mob with a name that is left alone: the name and the path of its file lead to it. -/
theorem reaches_of_resolve_moon :
    let moon : SourceFile := ⟨"mobs/moon.mob", .text "name = \"moon\"\n"⟩
    ∃ r, resolve "mobs/" ⟨[moon], [], []⟩ = .ok r ∧ "moon" ∈ (build "mobs/" r).names ∧
      (build "mobs/" r).Reaches "moon" "moon" ∧
      ∃ f ∈ [moon], (build "mobs/" r).Reaches f.path "moon" := by
  intro moon
  let s : Sources := ⟨[moon], [], []⟩
  have hbase : ∀ f ∈ s.base, ∃ t, f.parse = .ok t := by
    rw [List.forall_mem_singleton]
    exact ⟨[("name", .text "moon")], by cbv⟩
  obtain ⟨r, hr, hholds⟩ := exists_resolve "mobs/" hbase
  have hmoon := hholds "moon"
  rw [show s.definition? "mobs/" "moon" = some (.table [("name", .text "moon")]) by cbv] at hmoon
  have hlisted : "moon" ∈ (build "mobs/" r).names := mem_names_iff.mpr ⟨_, hmoon.2.1⟩
  obtain ⟨-, hnames, -⟩ := reaches_of_resolve hr
  obtain ⟨⟨f, hf, -, hpath⟩, -, hplain⟩ := hnames "moon" hlisted
  exact ⟨r, hr, hlisted, hplain (by decide), f, hf, hpath⟩

/-- A mob with its name below a folder that is called like the root: the name is listed, and the mob
is found by its path, but not by its name. -/
theorem nested_name_not_found :
    let moon : SourceFile := ⟨"mobs/mobs/moon.mob", .text "name = \"moon\"\n"⟩
    ∃ r, resolve "mobs/" ⟨[moon], [], []⟩ = .ok r ∧ "mobs/moon" ∈ (build "mobs/" r).names ∧
      (build "mobs/" r).contains "mobs/mobs/moon.mob" = true ∧
      (build "mobs/" r).contains "mobs/moon" = false := by
  intro moon
  let s : Sources := ⟨[moon], [], []⟩
  have hbase : ∀ f ∈ s.base, ∃ t, f.parse = .ok t := by
    rw [List.forall_mem_singleton]
    exact ⟨[("name", .text "moon")], by cbv⟩
  obtain ⟨r, hr, hholds⟩ := exists_resolve "mobs/" hbase
  have hlong := hholds "mobs/moon"
  have hshort := hholds "moon"
  rw [show s.definition? "mobs/" "mobs/moon" = some (.table [("name", .text "moon")]) by cbv]
    at hlong
  rw [show s.definition? "mobs/" "moon" = none by cbv] at hshort
  have hlisted : "mobs/moon" ∈ (build "mobs/" r).names := mem_names_iff.mpr ⟨_, hlong.2.1⟩
  refine ⟨r, hr, hlisted, contains_build_iff.mpr hlisted, ?_⟩
  rw [← Bool.not_eq_true, contains_build_iff, mem_names_iff]
  rintro ⟨m, hm⟩
  have hnone : (build "mobs/" r).mobs.get? (nameOf "mobs/" "mobs/moon") = none := hshort.2.1
  rw [hnone] at hm
  cases hm

end Registry

end Bestiary
