import Bestiary.Proofs.Store.Below
import Bestiary.Proofs.Text.Cut
import Bestiary.Store.MobFile

/-!
# Collecting documents

What is collected below a folder are the documents at its places, each with the path of its place
and the content of its file. Different files have different paths, so that two mobs never have one
name, and a patch has the name of a mob just when they stand side by side under one stem.

* `Disk.source?` is the document at a place.
* `Collected.IsExact` says what has been collected, `Disk.exists_collect` that it is.
-/

namespace Bestiary

/-- The end of the paths of documents of a kind. -/
def DocumentKind.extension : DocumentKind → String
  | .mob => mobExtension
  | .patch => patchExtension

/-! ## Names of documents -/

theorem mob_ne_patch (s t : String) : s ++ mobExtension ≠ t ++ patchExtension := by
  intro h
  have hlast := congrArg (fun s : String => s.toList.getLast?) h
  simp [mobExtension, patchExtension, String.toList_append] at hlast

/-- The extension of a document is taken off, and nothing else. -/
theorem withoutExtension_append (s : String) (kind : DocumentKind) :
    withoutExtension (s ++ kind.extension) = s := by
  cases kind with
  | mob => simp [withoutExtension, DocumentKind.extension]
  | patch =>
    have hmob : Text.withoutEnd? mobExtension (s ++ patchExtension) = none := by
      rw [Text.withoutEnd?_eq_none_iff, ← Bool.not_eq_true, Text.endsIn_iff]
      rintro ⟨rest, h⟩
      exact mob_ne_patch rest s h.symm
    simp [withoutExtension, DocumentKind.extension, hmob]

/-- Below the root, the name of a document is its path without the extension. -/
theorem nameOf_append (root s : String) (kind : DocumentKind) :
    nameOf root (root ++ (s ++ kind.extension)) = s := by
  rw [nameOf, Text.withoutStart?_append, Option.getD_some, withoutExtension_append]

theorem slash_not_mem_extension (kind : DocumentKind) : '/' ∉ kind.extension.toList := by
  cases kind <;> decide

/-- The end of a name is the end of the path. -/
theorem intercalate_concat_append (inner : Place) (stem stop : String) :
    "/".intercalate (inner ++ [stem ++ stop]) = "/".intercalate (inner ++ [stem]) ++ stop := by
  cases inner with
  | nil => simp
  | cons name inner =>
    rw [String.intercalate_append_of_ne_nil (List.cons_ne_nil _ _) (List.cons_ne_nil _ _),
      String.intercalate_append_of_ne_nil (List.cons_ne_nil _ _) (List.cons_ne_nil _ _)]
    simp [String.append_assoc]

/-- A path ends in a text without a slash just when the last name on it does. -/
theorem endsIn_intercalate_iff {place : Place} (hne : place ≠ [])
    (hnames : ∀ name ∈ place, '/' ∉ name.toList) {stop : String} (hstop : '/' ∉ stop.toList) :
    Text.endsIn stop ("/".intercalate place) = true ↔
      ∃ inner stem, place = inner ++ [stem ++ stop] := by
  rw [Text.endsIn_iff]
  constructor
  · rintro ⟨rest, h⟩
    obtain ⟨parts, last, hparts⟩ := Text.exists_split_append '/' rest
    refine ⟨parts, last, ?_⟩
    rw [← hparts stop hstop, ← h]
    exact (Text.split_intercalate hne hnames).symm
  · rintro ⟨inner, stem, rfl⟩
    exact ⟨_, intercalate_concat_append inner stem stop⟩

/-! ## Documents at places -/

namespace Disk

/-- The file at a place below a folder as a source below an asset root, unless it is in a folder of
deleted files. -/
def source? (d : Disk) (folder root : String) (place : Place) : Option SourceFile :=
  if deletedFolder ∈ place.dropLast then none
  else
    match (d.find? folder).bind (·.at? place) with
    | some (.file content) => some ⟨root ++ "/".intercalate place, .bytes content⟩
    | _ => none

variable {d : Disk} {folder root : String} {place : Place} {f : SourceFile}

theorem source?_eq_some_iff :
    d.source? folder root place = some f ↔
      deletedFolder ∉ place.dropLast ∧ ∃ e content, d.find? folder = some e ∧
        e.at? place = some (.file content) ∧
        f = ⟨root ++ "/".intercalate place, .bytes content⟩ := by
  unfold source?
  split
  · rename_i hdeleted
    simp [hdeleted]
  · rename_i hkept
    simp only [hkept, not_false_eq_true, true_and]
    cases d.find? folder with
    | none => simp
    | some e =>
      rw [Option.bind_some]
      cases hat : e.at? place with
      | none => simp [hat]
      | some u => cases u <;> simp [hat, eq_comm]

theorem path_of_source? (h : d.source? folder root place = some f) :
    f.path = root ++ "/".intercalate place := by
  obtain ⟨-, e, content, -, -, rfl⟩ := source?_eq_some_iff.mp h
  rfl

/-- There are names on the way to a document of a disk that is a tree. -/
theorem isName_of_source? (hd : Entry.IsTree d) (h : d.source? folder root place = some f) :
    ∀ name ∈ place, IsName name := by
  obtain ⟨-, e, content, hfind, hat, -⟩ := source?_eq_some_iff.mp h
  obtain ⟨here, -, hhere⟩ := Option.bind_eq_some_iff.mp hfind
  exact ((hd.at? hhere).1.at? hat).2

section Stems

variable {inner : Place} {stem : String} {kind : DocumentKind}

theorem path_of_stem (h : d.source? folder root (inner ++ [stem ++ kind.extension]) = some f) :
    f.path = root ++ ("/".intercalate (inner ++ [stem]) ++ kind.extension) := by
  rw [path_of_source? h, intercalate_concat_append]

/-- The name of a document is the path of its folder and its stem. -/
theorem name_of_stem (h : d.source? folder root (inner ++ [stem ++ kind.extension]) = some f) :
    nameOf root f.path = "/".intercalate (inner ++ [stem]) := by
  rw [path_of_stem h, nameOf_append]

theorem slash_not_mem_of_stem (hd : Entry.IsTree d)
    (h : d.source? folder root (inner ++ [stem ++ kind.extension]) = some f) :
    ∀ name ∈ inner ++ [stem], '/' ∉ name.toList := by
  intro name hname
  have hnames := isName_of_source? hd h
  rcases List.mem_append.mp hname with hinner | hstem
  · exact (hnames name (List.mem_append_left _ hinner)).2
  · obtain rfl := List.mem_singleton.mp hstem
    have hslash := (hnames (name ++ kind.extension) (by simp)).2
    rw [String.toList_append, List.mem_append, not_or] at hslash
    exact hslash.1

end Stems

end Disk

/-! ## What is collected -/

/-- The documents of a kind among those that have been collected. -/
def Collected.ofKind (c : Collected) : DocumentKind → List SourceFile
  | .mob => c.mobs
  | .patch => c.patches

/-- The documents that have been collected are those below the folder, each of them once, and they
do not get into each other's way. -/
structure Collected.IsExact (c : Collected) (d : Disk) (folder root : String) : Prop where
  /-- What has been collected of a kind are the documents at places with its extension. -/
  mem_iff : ∀ kind f, f ∈ c.ofKind kind ↔
    ∃ inner stem, d.source? folder root (inner ++ [stem ++ kind.extension]) = some f
  /-- All paths are different. -/
  nodup : ((c.mobs ++ c.patches).map SourceFile.path).Nodup
  /-- Mobs with one name are one mob. -/
  name_inj : ∀ f ∈ c.mobs, ∀ g ∈ c.mobs, nameOf root f.path = nameOf root g.path → f = g
  /-- A patch has the name of a mob iff they differ in the extension only. -/
  patch_iff : ∀ p ∈ c.patches, ∀ f ∈ c.mobs, nameOf root p.path = nameOf root f.path ↔
    ∃ stem, p.path = stem ++ patchExtension ∧ f.path = stem ++ mobExtension

namespace Collected

variable {c : Collected} {d : Disk} {folder root : String}

theorem ofEntry_ofKind (root : String) (e : Entry) (kind : DocumentKind) :
    (ofEntry root e).ofKind kind =
      ((e.files "").filter fun f => Text.endsIn kind.extension f.path).map fun f =>
        ⟨root ++ f.path, .bytes f.content⟩ := by
  cases kind <;> rfl

/-- What is collected in a folder are the documents at its places. -/
theorem mem_ofEntry_iff (hd : Entry.IsTree d) {entries : List (String × Entry)}
    (hfind : d.find? folder = some (.folder entries)) (kind : DocumentKind) (f : SourceFile) :
    f ∈ (ofEntry root (.folder entries)).ofKind kind ↔
      ∃ inner stem, d.source? folder root (inner ++ [stem ++ kind.extension]) = some f := by
  obtain ⟨here, -, hhere⟩ := Option.bind_eq_some_iff.mp hfind
  have htree : (Entry.folder entries).IsTree := (hd.at? hhere).1
  rw [ofEntry_ofKind, List.mem_map]
  simp only [List.mem_filter]
  constructor
  · rintro ⟨_, ⟨hfile, hends⟩, rfl⟩
    obtain ⟨place, content, hat, hkept, rfl⟩ := (Entry.mem_files_iff htree).mp hfile
    have hnames := (htree.at? hat).2
    have hne : place ≠ [] := by
      rintro rfl
      cases hat
    rw [foldl_pathBelow_empty hnames] at hends ⊢
    obtain ⟨inner, stem, rfl⟩ := (endsIn_intercalate_iff hne (fun _ hn => (hnames _ hn).2)
      (slash_not_mem_extension kind)).mp hends
    exact ⟨inner, stem, Disk.source?_eq_some_iff.mpr ⟨hkept, _, content, hfind, hat, rfl⟩⟩
  · rintro ⟨inner, stem, hsource⟩
    obtain ⟨hkept, e, content, hfind', hat, rfl⟩ := Disk.source?_eq_some_iff.mp hsource
    obtain rfl := Option.some.inj (hfind.symm.trans hfind')
    have hnames := (htree.at? hat).2
    have hpath := foldl_pathBelow_empty hnames
    refine ⟨_, ⟨(Entry.mem_files_iff htree).mpr ⟨_, content, hat, hkept, rfl⟩, ?_⟩, by rw [hpath]⟩
    rw [hpath, intercalate_concat_append]
    exact Text.endsIn_iff.mpr ⟨_, rfl⟩

/-- The documents of a kind in a folder have different paths. -/
theorem nodup_ofEntry (root : String) {e : Entry} (htree : e.IsTree) (kind : DocumentKind) :
    (((ofEntry root e).ofKind kind).map SourceFile.path).Nodup := by
  have hpaths := (Entry.nodup_files htree "").sublist
    ((List.filter_sublist (p := fun f => Text.endsIn kind.extension f.path)).map FileBelow.path)
  rw [ofEntry_ofKind, List.map_map]
  have hroot := hpaths.map (fun _ _ h => (String.append_right_inj root).mp h)
  rwa [List.map_map] at hroot

/-- **What is at places does not get in the way of what is at others.** -/
theorem isExact_of_mem_iff
    (hmem : ∀ kind f, f ∈ c.ofKind kind ↔
      ∃ inner stem, d.source? folder root (inner ++ [stem ++ kind.extension]) = some f)
    (hnodup : ∀ kind, ((c.ofKind kind).map SourceFile.path).Nodup) :
    c.IsExact d folder root := by
  refine ⟨hmem, ?_, fun f hf g hg h => ?_, fun p hp f hf => ⟨fun h => ?_, ?_⟩⟩
  · rw [List.map_append]
    refine List.nodup_append'.mpr ⟨hnodup .mob, hnodup .patch, fun path hpath hpath' => ?_⟩
    obtain ⟨f, hf, rfl⟩ := List.mem_map.mp hpath
    obtain ⟨p, hp, hpf⟩ := List.mem_map.mp hpath'
    obtain ⟨inner, stem, hsource⟩ := (hmem .mob f).mp hf
    obtain ⟨inner', stem', hsource'⟩ := (hmem .patch p).mp hp
    rw [Disk.path_of_stem hsource, Disk.path_of_stem hsource', String.append_right_inj] at hpf
    exact mob_ne_patch _ _ hpf.symm
  · obtain ⟨inner, stem, hsource⟩ := (hmem .mob f).mp hf
    obtain ⟨inner', stem', hsource'⟩ := (hmem .mob g).mp hg
    refine List.inj_on_of_nodup_map (hnodup .mob) hf hg ?_
    rw [Disk.name_of_stem hsource, Disk.name_of_stem hsource'] at h
    rw [Disk.path_of_stem hsource, Disk.path_of_stem hsource', h]
  · obtain ⟨inner, stem, hsource⟩ := (hmem .patch p).mp hp
    obtain ⟨inner', stem', hsource'⟩ := (hmem .mob f).mp hf
    rw [Disk.name_of_stem hsource, Disk.name_of_stem hsource'] at h
    refine ⟨root ++ "/".intercalate (inner ++ [stem]), ?_, ?_⟩
    · rw [Disk.path_of_stem hsource, String.append_assoc]
      rfl
    · rw [Disk.path_of_stem hsource', h, String.append_assoc]
      rfl
  · rintro ⟨whole, hpath, hpath'⟩
    obtain ⟨inner, stem, hsource⟩ := (hmem .patch p).mp hp
    obtain ⟨inner', stem', hsource'⟩ := (hmem .mob f).mp hf
    rw [Disk.path_of_stem hsource, ← String.append_assoc] at hpath
    rw [Disk.path_of_stem hsource', ← String.append_assoc] at hpath'
    have hwhole := (String.append_left_inj _).mp hpath
    have hwhole' := (String.append_left_inj _).mp hpath'
    rw [Disk.name_of_stem hsource, Disk.name_of_stem hsource']
    exact (String.append_right_inj root).mp (hwhole.trans hwhole'.symm)

end Collected

/-- **What is collected are the documents below the folder**, unless a file stands in its place. -/
theorem Disk.exists_collect {d : Disk} (hd : Entry.IsTree d) {folder : String}
    (hfolder : ∀ content, d.find? folder ≠ some (.file content)) (root : String) :
    ∃ c, collect d folder root = .ok c ∧ c.IsExact d folder root := by
  unfold collect
  cases hfind : d.find? folder with
  | none =>
    refine ⟨_, rfl, Collected.isExact_of_mem_iff (fun kind f => ?_) fun kind => ?_⟩
    · have hnone : ∀ place, d.source? folder root place = none := by
        simp [Disk.source?, hfind]
      cases kind <;> simp [Collected.ofKind, hnone]
    · cases kind <;> exact List.nodup_nil
  | some e =>
    cases e with
    | file content => exact absurd hfind (hfolder content)
    | folder entries =>
      obtain ⟨here, -, hhere⟩ := Option.bind_eq_some_iff.mp hfind
      exact ⟨_, rfl, Collected.isExact_of_mem_iff (Collected.mem_ofEntry_iff hd hfind)
        (Collected.nodup_ofEntry root (hd.at? hhere).1)⟩

end Bestiary
