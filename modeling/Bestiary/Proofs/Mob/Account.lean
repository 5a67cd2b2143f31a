import Bestiary.Proofs.Mob.Resolve

/-!
# Nothing is left out in silence

Every file and every definition ends up in a resolution or in a warning. A file of the upper layers
is either counted or skipped with one warning; a merged definition is either a mob or a failure, with
one warning as well.

* `accounts_extend` and `accounts_patch` are what one file adds, `accounts_foldl_extend` and
  `accounts_foldl_patch` what the files of a layer add.
* `keys_conforming_append_entities_perm`: mobs and failures share the names out.
* `resolve_accounts` is the account of a whole resolution.
-/

namespace Bestiary

namespace Resolution

/-! ## Mobs and failures share the names -/

variable (values : Table (Table Value))

theorem keys_conforming_sublist : (conforming values).keys.Sublist values.keys := by
  induction values with
  | nil => exact .slnil
  | cons e values ih =>
    obtain ⟨name, t⟩ := e
    rw [conforming_cons]
    cases Definition.read name (.table t) with
    | ok m => exact ih.cons_cons name
    | error e => exact ih.cons name

theorem entities_sublist : ((issues values).map DefinitionError.entity).Sublist values.keys := by
  induction values with
  | nil => exact .slnil
  | cons e values ih =>
    obtain ⟨name, t⟩ := e
    rw [issues_cons]
    cases hread : Definition.read name (.table t) with
    | ok m => exact ih.cons name
    | error e =>
      rw [← Definition.entity_of_read hread]
      exact ih.cons_cons e.entity

/-- **Every definition is a mob or a failure**, under its own name. -/
theorem keys_conforming_append_entities_perm :
    ((conforming values).keys ++ (issues values).map DefinitionError.entity).Perm values.keys := by
  induction values with
  | nil => exact .nil
  | cons e values ih =>
    obtain ⟨name, t⟩ := e
    rw [conforming_cons, issues_cons]
    cases hread : Definition.read name (.table t) with
    | ok m => exact ih.cons name
    | error e =>
      rw [← Definition.entity_of_read hread]
      exact List.perm_middle.trans (ih.cons e.entity)

end Resolution

/-- Whether there is a table in a file. -/
def SourceFile.parses (f : SourceFile) : Bool := f.parse.toOption.isSome

namespace Layered

variable (root : String)

/-- Whether a patch can be read and there is something to patch. -/
def applies (l : Layered) (f : SourceFile) : Bool :=
  f.parses && l.tables.has (nameOf root f.path)

/-! ## What one file adds -/

/-- **Step**: an extended file is counted if it can be read, and skipped if not. -/
theorem accounts_extend (l : Layered) (f : SourceFile) :
    (l.extend root f).counts =
        { l.counts with extended := l.counts.extended + if f.parses then 1 else 0 } ∧
      (l.extend root f).skips.length + (if f.parses then 1 else 0) = l.skips.length + 1 := by
  unfold extend SourceFile.parses
  cases f.parse with
  | error e => simp [Except.toOption]
  | ok t => simp [Except.toOption]

/-- **Step**: a patch is counted if it applies, and skipped if not. -/
theorem accounts_patch (l : Layered) (f : SourceFile) :
    (l.patch root f).counts =
        { l.counts with patched := l.counts.patched + if l.applies root f then 1 else 0 } ∧
      (l.patch root f).skips.length + (if l.applies root f then 1 else 0) =
        l.skips.length + 1 := by
  unfold patch applies SourceFile.parses Table.has
  cases f.parse with
  | error e => simp [Except.toOption]
  | ok t => cases htarget : l.tables.get? (nameOf root f.path) <;> simp [htarget, Except.toOption]

/-- A patch adds no name and takes none away. -/
theorem has_patch (l : Layered) (f : SourceFile) (name : String) :
    (l.patch root f).tables.has name = l.tables.has name := by
  unfold Table.has
  rw [get?_patch]
  split
  · rw [Option.isSome_map]
  · rfl

/-- Which patches apply does not depend on the patches before. -/
theorem applies_patch (l : Layered) (f : SourceFile) :
    (l.patch root f).applies root = l.applies root := by
  funext g
  unfold applies
  rw [has_patch]

/-! ## What the files of a layer add -/

/-- **Run**: extended files are counted or skipped, one by one. -/
theorem accounts_foldl_extend (l : Layered) (files : List SourceFile) :
    (files.foldl (extend root) l).counts =
        { l.counts with extended := l.counts.extended + files.countP SourceFile.parses } ∧
      (files.foldl (extend root) l).skips.length + files.countP SourceFile.parses =
        l.skips.length + files.length := by
  induction files generalizing l with
  | nil => exact ⟨rfl, rfl⟩
  | cons f files ih =>
    obtain ⟨hcounts, hskips⟩ := accounts_extend root l f
    obtain ⟨hcounts', hskips'⟩ := ih (l.extend root f)
    rw [List.foldl_cons, List.countP_cons, List.length_cons]
    constructor
    · rw [hcounts', hcounts]
      simp only [LayerCounts.mk.injEq, true_and, and_true]
      omega
    · omega

/-- **Run**: patches are counted or skipped, one by one. -/
theorem accounts_foldl_patch (l : Layered) (files : List SourceFile) :
    (files.foldl (patch root) l).counts =
        { l.counts with patched := l.counts.patched + files.countP (l.applies root) } ∧
      (files.foldl (patch root) l).skips.length + files.countP (l.applies root) =
        l.skips.length + files.length := by
  induction files generalizing l with
  | nil => exact ⟨rfl, rfl⟩
  | cons f files ih =>
    obtain ⟨hcounts, hskips⟩ := accounts_patch root l f
    obtain ⟨hcounts', hskips'⟩ := ih (l.patch root f)
    rw [applies_patch] at hcounts' hskips'
    rw [List.foldl_cons, List.countP_cons, List.length_cons]
    constructor
    · rw [hcounts', hcounts]
      simp only [LayerCounts.mk.injEq, true_and]
      omega
    · omega

theorem has_foldl_patch (l : Layered) (files : List SourceFile) (name : String) :
    (files.foldl (patch root) l).tables.has name = l.tables.has name :=
  List.foldlRecOn (motive := fun l' : Layered => l'.tables.has name = l.tables.has name) files _ rfl
    fun _ h f _ => (has_patch root _ f name).trans h

/-- **The account of all layers.** -/
theorem accounts_layer {root : String} {s : Sources} {l : Layered} (h : layer root s = .ok l) :
    l.counts.base = s.base.length ∧
      l.counts.extended = s.extended.countP SourceFile.parses ∧
      l.counts.patched = s.patches.countP (l.applies root) ∧
      l.skips.length + l.counts.extended + l.counts.patched =
        s.extended.length + s.patches.length := by
  obtain ⟨tables, hbase, rfl⟩ := layer_eq_ok_iff.mp h
  generalize hstart : (byPath s.extended).foldl (extend root) (.ofBase tables) = start
  obtain ⟨hcounts, hskips⟩ := accounts_foldl_extend root (.ofBase tables) (byPath s.extended)
  obtain ⟨hcounts', hskips'⟩ := accounts_foldl_patch root start (byPath s.patches)
  rw [hstart] at hcounts hskips
  have happlies : ((byPath s.patches).foldl (patch root) start).applies root =
      start.applies root := by
    funext f
    unfold applies
    rw [has_foldl_patch]
  have hlength : tables.length = s.base.length := by
    rw [readBase, Except.mapM_eq_ok_iff] at hbase
    rw [← (byPath_perm s.base).length_eq, hbase.length_eq]
  rw [happlies, hcounts', hcounts, ← (byPath_perm s.extended).countP_eq,
    ← (byPath_perm s.patches).countP_eq, ← (byPath_perm s.extended).length_eq,
    ← (byPath_perm s.patches).length_eq]
  refine ⟨hlength, ?_, ?_, ?_⟩
  · exact Nat.zero_add _
  · exact Nat.zero_add _
  · simp only [ofBase, List.length_nil, Nat.zero_add] at hskips ⊢
    omega

end Layered

/-- **Nothing is left out in silence.** In a resolution the names are strictly ascending, and so are
those of the mobs and those of the failures, which have no name in common and make up all names. The
base files are all counted; the extended files, if they can be read; the patches, if they can be read
and their name is there. For everything else there is one warning: for each extended file and each
patch that is not counted, and for each failure. -/
theorem resolve_accounts {root : String} {s : Sources} {r : Resolution}
    (h : resolve root s = .ok r) :
    let ascending (names : List String) := names.Pairwise fun a b => Text.before a b = true
    let failed := r.failures.map DefinitionError.entity
    ascending r.values.keys ∧ ascending r.mobs.keys ∧ ascending failed ∧
      r.mobs.keys.Disjoint failed ∧
      (∀ name, name ∈ r.values.keys ↔ name ∈ r.mobs.keys ∨ name ∈ failed) ∧
      r.counts.base = s.base.length ∧
      r.counts.extended = s.extended.countP SourceFile.parses ∧
      r.counts.patched = s.patches.countP
        (fun f => f.parses && decide (nameOf root f.path ∈ r.values.keys)) ∧
      (r.skips.length : Int) = (s.extended.length - r.counts.extended) +
        (s.patches.length - r.counts.patched) + r.failures.length := by
  intro ascending failed
  unfold resolve at h
  cases hlayer : layer root s with
  | error e =>
    rw [hlayer] at h
    exact absurd h (by simp)
  | ok l =>
    rw [hlayer] at h
    obtain rfl := Except.ok.inj h
    obtain ⟨hbase, hextended, hpatched, hskips⟩ := Layered.accounts_layer hlayer
    have hnodup := l.nodup_values (Layered.nodup_layer hlayer)
    have hascending : ascending l.values.keys := by
      rw [l.keys_values]
      exact Text.pairwise_before_sort (Layered.nodup_layer hlayer)
    have hperm := Resolution.keys_conforming_append_entities_perm l.values
    refine ⟨hascending, hascending.sublist (Resolution.keys_conforming_sublist _),
      hascending.sublist (Resolution.entities_sublist _), ?_, fun name => ?_, hbase, hextended,
      ?_, ?_⟩
    · exact List.disjoint_of_nodup_append (hperm.nodup_iff.mpr hnodup)
    · exact hperm.mem_iff.symm.trans List.mem_append
    · refine hpatched.trans (congrArg (List.countP · s.patches) (funext fun f => ?_))
      have hmem : l.tables.has (nameOf root f.path) =
          decide (nameOf root f.path ∈ l.values.keys) := by
        rw [Bool.eq_iff_iff, Table.has_eq_true_iff, decide_eq_true_iff, l.keys_values,
          (Text.sort_perm _).mem_iff]
      rw [Layered.applies, hmem]
      rfl
    · simp only [Resolution.ofLayered, List.length_append, List.length_map]
      omega

/-- Of two extended files beside a base file, one cannot be read, which is one warning. -/
theorem resolve_accounts_moon :
    let file (path text : String) : SourceFile := ⟨path, .text text⟩
    let s : Sources := ⟨[file "mobs/moon.mob" ""],
      [file "mobs/sun.mob" "name =", file "mobs/star.mob" "name = \"star\"\n"], []⟩
    ∃ r, resolve "mobs/" s = .ok r ∧ r.counts.base = 1 ∧ r.counts.extended = 1 ∧
      r.counts.patched = 0 ∧ r.skips.length = 1 + r.failures.length := by
  intro file s
  have hbase : ∀ f ∈ s.base, ∃ t, f.parse = .ok t := by
    rw [List.forall_mem_singleton]
    exact ⟨[], by cbv⟩
  obtain ⟨r, hr, -⟩ := exists_resolve "mobs/" hbase
  obtain ⟨-, -, -, -, -, hcount, hextended, hpatched, hskips⟩ := resolve_accounts hr
  have hparses : s.extended.countP SourceFile.parses = 1 := by cbv
  rw [hparses] at hextended
  refine ⟨r, hr, hcount, hextended, hpatched, ?_⟩
  rw [hextended, show r.counts.patched = 0 from hpatched] at hskips
  simp only [s, List.length_cons, List.length_nil] at hskips
  omega

end Bestiary
