import Bestiary.Proofs.CommandLine.Program
import Bestiary.Proofs.Mob.Registry
import Bestiary.Proofs.Store.Collect

/-!
# What a project is made of

A project has a base folder and an extended folder. In each of them there is at most one mob and one
patch under a stem in a folder, and no other document has their name. So the definition of a name is
made of four documents at most: the extended mob, or else the base mob, with the base patch and the
extended patch of the same folder and stem laid over it.

* `Config.definitionAt?` is that definition.
* `on_resolveProject` says what resolving a project does, `sources_exact` that the resolution holds
  these definitions and no others.
-/

namespace Bestiary

open Program

/-! ## One layer -/

/-- A list without repetitions that has the one item of an option is that item, or nothing. -/
theorem eq_toList_of_nodup {α : Type} {items : List α} {o : Option α} (h : items.Nodup)
    (hmem : ∀ a, a ∈ items ↔ o = some a) : items = o.toList := by
  cases o with
  | none => exact List.eq_nil_iff_forall_not_mem.mpr fun a ha => by cases (hmem a).mp ha
  | some a =>
    refine List.perm_singleton.mp
      ((List.perm_ext_iff_of_nodup h (List.nodup_singleton a)).mpr fun b => ?_)
    rw [hmem, List.mem_singleton, Option.some.injEq, eq_comm]

theorem getLast?_toList {α : Type} (o : Option α) : o.toList.getLast? = o := by
  cases o <;> rfl

section Layer

variable {d : Disk} {c : Collected} {folder root : String} {inner : Place} {stem : String}

theorem Collected.IsExact.nodup_ofKind (h : c.IsExact d folder root) (kind : DocumentKind) :
    (c.ofKind kind).Nodup := by
  have hnodup := h.nodup.of_map
  rw [List.nodup_append'] at hnodup
  cases kind with
  | mob => exact hnodup.1
  | patch => exact hnodup.2.1

/-- **Under a stem in a folder stands one document of a kind at most**, and it alone has its
name. -/
theorem Collected.IsExact.filesNamed_eq (h : c.IsExact d folder root) (hd : Entry.IsTree d)
    (hnames : ∀ name ∈ inner ++ [stem], '/' ∉ name.toList) (kind : DocumentKind) :
    filesNamed root ("/".intercalate (inner ++ [stem])) (c.ofKind kind) =
      (d.source? folder root (inner ++ [stem ++ kind.extension])).toList := by
  refine eq_toList_of_nodup ((h.nodup_ofKind kind).filter _) fun f => ?_
  rw [filesNamed, List.mem_filter, decide_eq_true_iff, h.mem_iff]
  constructor
  · rintro ⟨⟨inner', stem', hsource⟩, hname⟩
    rw [Disk.name_of_stem hsource] at hname
    have hplace := intercalate_inj (by simp) (by simp) (Disk.slash_not_mem_of_stem hd hsource)
      hnames hname
    obtain ⟨rfl, hstem⟩ := List.append_inj' hplace rfl
    obtain rfl := List.singleton_inj.mp hstem
    exact hsource
  · exact fun hsource => ⟨⟨inner, stem, hsource⟩, Disk.name_of_stem hsource⟩

/-- What could be collected has been collected exactly. -/
theorem Disk.isExact_of_collect (hd : Entry.IsTree d) (h : collect d folder root = .ok c) :
    c.IsExact d folder root := by
  have hfolder : ∀ content, d.find? folder ≠ some (.file content) := by
    intro content hfile
    rw [collect, hfile] at h
    cases h
  obtain ⟨c', hc', hexact⟩ := exists_collect hd hfolder root
  obtain rfl := Except.ok.inj (h.symm.trans hc')
  exact hexact

end Layer

/-! ## All layers -/

/-- The table of a document, if there is one that can be read. -/
def tableOf? (f? : Option SourceFile) : Option (Table Value) := f?.bind fun f => f.parse.toOption

/-- **The definition of a stem in a folder**: the extended mob, or else the base mob, with the base
patch and then the extended patch laid over it. -/
def Config.definitionAt? (config : Config) (d : Disk) (inner : Place) (stem : String) :
    Option Value :=
  let table? (folder : String) (kind : DocumentKind) : Option (Table Value) :=
    tableOf? (d.source? folder config.root (inner ++ [stem ++ kind.extension]))
  ((table? config.extendedFolder .mob).or (table? config.baseFolder .mob)).map fun start =>
    ((table? config.baseFolder .patch).toList ++ (table? config.extendedFolder .patch).toList).foldl
      (fun (v : Value) patch => v.merge (.table patch)) (.table start)

theorem tablesIn_toList (f? : Option SourceFile) : tablesIn f?.toList = (tableOf? f?).toList := by
  cases f? with
  | none => rfl
  | some f =>
    unfold tablesIn tableOf?
    cases h : f.parse.toOption <;> simp [h]

theorem tablesIn_append (files files' : List SourceFile) :
    tablesIn (files ++ files') = tablesIn files ++ tablesIn files' := List.filterMap_append ..

/-- Files with one path are left in their order. -/
theorem byPath_eq_self {files : List SourceFile} {path : String}
    (h : ∀ f ∈ files, f.path = path) : byPath files = files := by
  have hsorted : files.Pairwise fun a b => Text.notAfter a.path b.path = true := by
    refine List.pairwise_of_forall_mem_list fun f hf g hg => ?_
    rw [h f hf, h g hg]
    simpa using Text.notAfter_total path path
  rw [byPath]
  exact List.mergeSort_of_pairwise hsorted

section Project

variable {config : Config} {d : Disk} {base extended : Collected} {inner : Place} {stem : String}

theorem path_of_mem_source? {folder root : String} {kind : DocumentKind} {f : SourceFile}
    (hf : f ∈ (d.source? folder root (inner ++ [stem ++ kind.extension])).toList) :
    f.path = root ++ ("/".intercalate (inner ++ [stem]) ++ kind.extension) :=
  Disk.path_of_stem (Option.mem_toList.mp hf)

/-- The last table of a name in a layer is that of the one mob of the name. -/
theorem getLast?_tablesIn_mobs (hd : Entry.IsTree d) {c : Collected} {folder root : String}
    (h : c.IsExact d folder root) (hnames : ∀ name ∈ inner ++ [stem], '/' ∉ name.toList) :
    (tablesIn (byPath (filesNamed root ("/".intercalate (inner ++ [stem])) c.mobs))).getLast? =
      tableOf? (d.source? folder root (inner ++ [stem ++ mobExtension])) := by
  have hnamed := h.filesNamed_eq hd hnames .mob
  rw [show c.mobs = c.ofKind .mob from rfl, hnamed,
    byPath_eq_self fun f hf => path_of_mem_source? hf, tablesIn_toList, getLast?_toList]
  rfl

/-- The patches of a name are those of the base folder and of the extended folder. -/
theorem tablesIn_patches (hd : Entry.IsTree d)
    (hbase : base.IsExact d config.baseFolder config.root)
    (hextended : extended.IsExact d config.extendedFolder config.root)
    (hnames : ∀ name ∈ inner ++ [stem], '/' ∉ name.toList) :
    tablesIn (byPath (filesNamed config.root ("/".intercalate (inner ++ [stem]))
        (base.patches ++ extended.patches))) =
      (tableOf? (d.source? config.baseFolder config.root
        (inner ++ [stem ++ patchExtension]))).toList ++
      (tableOf? (d.source? config.extendedFolder config.root
        (inner ++ [stem ++ patchExtension]))).toList := by
  have hnamed := hbase.filesNamed_eq hd hnames .patch
  have hnamed' := hextended.filesNamed_eq hd hnames .patch
  rw [filesNamed, List.filter_append, ← filesNamed, ← filesNamed,
    show base.patches = base.ofKind .patch from rfl,
    show extended.patches = extended.ofKind .patch from rfl, hnamed, hnamed',
    byPath_eq_self fun f hf =>
      (List.mem_append.mp hf).elim path_of_mem_source? path_of_mem_source?,
    tablesIn_append, tablesIn_toList, tablesIn_toList]
  rfl

/-- The layers of a project define under the name of a stem what stands there. -/
theorem definition?_eq (hd : Entry.IsTree d) (hbase : base.IsExact d config.baseFolder config.root)
    (hextended : extended.IsExact d config.extendedFolder config.root)
    (hnames : ∀ name ∈ inner ++ [stem], '/' ∉ name.toList) :
    (⟨base.mobs, extended.mobs, base.patches ++ extended.patches⟩ : Sources).definition?
        config.root ("/".intercalate (inner ++ [stem])) =
      config.definitionAt? d inner stem := by
  unfold Sources.definition?
  simp only [getLast?_tablesIn_mobs hd hbase hnames, getLast?_tablesIn_mobs hd hextended hnames,
    tablesIn_patches hd hbase hextended hnames]
  rfl

/-! ## Resolving a project -/

theorem on_collectBelow (folder root : String) (w : World) :
    (collectBelow folder root).on w =
      ((collect w.disk folder root).mapError fun e => .error (FileError.disk e).message, w) := by
  rw [collectBelow, on_onDisk, OnDisk.on_look]
  cases collect w.disk folder root <;> rfl

/-- **A project is resolved** iff both folders can be gone through and their documents can be
resolved. -/
theorem on_resolveProject_iff {w : World} {r : Resolution} :
    (∃ w', (resolveProject config).on w = (.ok r, w')) ↔
      ∃ base extended, collect w.disk config.baseFolder config.root = .ok base ∧
        collect w.disk config.extendedFolder config.root = .ok extended ∧
        resolve config.root ⟨base.mobs, extended.mobs, base.patches ++ extended.patches⟩ =
          .ok r := by
  unfold resolveProject
  rw [on_bind, on_collectBelow]
  cases hbase : collect w.disk config.baseFolder config.root with
  | error e => simp [Except.mapError]
  | ok base =>
    simp only [Except.mapError]
    rw [on_bind, on_collectBelow]
    cases hextended : collect w.disk config.extendedFolder config.root with
    | error e => simp [Except.mapError]
    | ok extended =>
      simp only [Except.mapError]
      cases hr : resolve config.root
        ⟨base.mobs, extended.mobs, base.patches ++ extended.patches⟩ with
      | error e =>
        simp only [Except.ok.injEq, exists_and_left, exists_eq_left', hr, reduceCtorEq, iff_false]
        rintro ⟨w', h⟩
        cases h
      | ok r' =>
        simp only [Except.ok.injEq, exists_and_left, exists_eq_left', hr]
        -- Warnings are printed at the end, which never fails.
        have hwarns : Gives (r'.skips.forM fun s => warn s.message) ⟨⟩ :=
          .forM (fun s => .warn s.message) r'.skips
        obtain ⟨w', -, hw'⟩ := hwarns w
        rw [on_bind, hw']
        constructor
        · rintro ⟨w'', h⟩
          exact Except.ok.inj (congrArg Prod.fst h)
        · rintro rfl
          exact ⟨w', rfl⟩

/-- A project is resolved if no file stands in the place of its folders and its base mobs can be
read. -/
theorem exists_on_resolveProject {w : World} (hd : Entry.IsTree w.disk)
    (hbaseFolder : ∀ content, w.disk.find? config.baseFolder ≠ some (.file content))
    (hextendedFolder : ∀ content, w.disk.find? config.extendedFolder ≠ some (.file content))
    (hmobs : ∀ inner stem f,
      w.disk.source? config.baseFolder config.root (inner ++ [stem ++ mobExtension]) = some f →
        ∃ t, f.parse = .ok t) :
    ∃ r w', (resolveProject config).on w = (.ok r, w') := by
  obtain ⟨base, hbase, hexact⟩ := Disk.exists_collect hd hbaseFolder config.root
  obtain ⟨extended, hextended, -⟩ := Disk.exists_collect hd hextendedFolder config.root
  have hparse : ∀ f ∈ base.mobs, ∃ t, f.parse = .ok t := by
    intro f hf
    obtain ⟨inner, stem, hsource⟩ := (hexact.mem_iff .mob f).mp hf
    exact hmobs inner stem f hsource
  obtain ⟨r, hr, -⟩ := exists_resolve config.root
    (s := ⟨base.mobs, extended.mobs, base.patches ++ extended.patches⟩) hparse
  exact ⟨r, on_resolveProject_iff.mpr ⟨base, extended, hbase, hextended, hr⟩⟩

end Project

/-! ## All documents of a project -/

/-- **Documents are collected exactly and do not get in each other's way.** Below a folder, or where
there is none, the documents at places outside of the folders of deleted files are collected, each
once, with the content of its file and the path of its place. Their paths are different, the names
of mobs are different, and a patch has the name of a mob iff they differ in the extension only. So a
project that is resolved holds under the path of each stem what stands there: the extended mob, or
else the base mob, with the patches of the same folder and stem laid over it, and no file is lost to
another one of its layer. -/
theorem sources_exact {d : Disk} (hd : Entry.IsTree d) :
    (∀ folder root, (∀ content, d.find? folder ≠ some (.file content)) →
      ∃ c, collect d folder root = .ok c ∧ c.IsExact d folder root) ∧
    ∀ (config : Config) (w w' : World) (r : Resolution), w.disk = d →
      (resolveProject config).on w = (.ok r, w') →
      ∀ inner stem, (∀ name ∈ inner ++ [stem], '/' ∉ name.toList) →
        r.Holds ("/".intercalate (inner ++ [stem])) (config.definitionAt? d inner stem) := by
  refine ⟨fun folder root hfolder => Disk.exists_collect hd hfolder root, ?_⟩
  rintro config w w' r rfl hon inner stem hnames
  obtain ⟨base, extended, hbase, hextended, hr⟩ := on_resolveProject_iff.mp ⟨w', hon⟩
  rw [← definition?_eq hd (Disk.isExact_of_collect hd hbase) (Disk.isExact_of_collect hd hextended)
    hnames]
  exact Resolution.holds_of_resolve hr _

/-- A project without a base folder: its one mob is renamed by the patch beside it, and what was
deleted is left out. -/
theorem sources_exact_moon :
    let moon : List UInt8 := Text.encode "name = \"moon\"\n"
    let sun : List UInt8 := Text.encode "name = \"sun\"\n"
    let d : Disk := .folder [("mobs", .folder [("moon.mob", .file moon),
      ("moon.mobpatch", .file sun), (".deleted", .folder [("moon.mob", .file sun)])])]
    let config : Config := ⟨"base", "mobs", "mobs/", 5⟩
    (∃ c, collect d "mobs" "mobs/" = .ok c ∧ ⟨"mobs/moon.mob", .bytes moon⟩ ∈ c.mobs ∧
      c.IsExact d "mobs" "mobs/") ∧
    ∃ r w', (resolveProject config).on ⟨d, [], []⟩ = (.ok r, w') ∧
      r.Holds "moon" (some (.table [("name", .text "sun")])) := by
  intro moon sun d config
  have hd : Entry.IsTree d := by simp [d, IsName, Table.keys]
  obtain ⟨hcollect, hresolve⟩ := sources_exact hd
  have hbase : d.find? "base" = none := by cbv
  have hmobs : d.find? "mobs" = some (.folder [("moon.mob", .file moon),
      ("moon.mobpatch", .file sun), (".deleted", .folder [("moon.mob", .file sun)])]) := by cbv
  have hmob : d.source? "mobs" "mobs/" ["moon" ++ mobExtension] =
      some ⟨"mobs/moon.mob", .bytes moon⟩ := by cbv
  constructor
  · obtain ⟨c, hc, hexact⟩ := hcollect "mobs" "mobs/" (by simp [hmobs])
    exact ⟨c, hc, (hexact.mem_iff .mob _).mpr ⟨[], "moon", hmob⟩, hexact⟩
  · have hnothing (place : Place) : d.source? "base" "mobs/" place = none := by
      simp [Disk.source?, hbase]
    have hresolved : ∃ r w', (resolveProject config).on ⟨d, [], []⟩ = (.ok r, w') :=
      exists_on_resolveProject hd (by simp [config, hbase]) (by simp [config, hmobs])
        fun inner stem f h => by simp [config, hnothing] at h
    obtain ⟨r, w', hon⟩ := hresolved
    have hpatch : d.source? "mobs" "mobs/" ["moon" ++ patchExtension] =
        some ⟨"mobs/moon.mobpatch", .bytes sun⟩ := by cbv
    have hmoon : tableOf? (d.source? "mobs" "mobs/" ["moon" ++ mobExtension]) =
        some [("name", .text "moon")] := by
      simp only [hmob, moon]
      cbv
    have hsun : tableOf? (d.source? "mobs" "mobs/" ["moon" ++ patchExtension]) =
        some [("name", .text "sun")] := by
      simp only [hpatch, sun]
      cbv
    have hdefinition :
        config.definitionAt? d [] "moon" = some (.table [("name", .text "sun")]) := by
      simp only [Config.definitionAt?, config, hnothing, List.nil_append, DocumentKind.extension,
        hmoon, hsun]
      rfl
    have hholds := hresolve config _ w' r rfl hon [] "moon" (by decide)
    rw [hdefinition] at hholds
    exact ⟨r, w', hon, hholds⟩

end Bestiary
