import Bestiary.Proofs.Store.Shape
import Mathlib.Data.List.Nodup

/-!
# The files below a folder

A walk through a folder finds every file below it once, but for those in folders of deleted files,
by the path that leads to it. Since no name has a slash in it, different files have different paths.

* `foldl_pathBelow_inj`: different places have different paths.
* `Entry.mem_files_iff`: what is found on a walk is what stands at a place outside of the folders of
  deleted files.
* `Entry.nodup_files`: no path is found twice.
-/

namespace Bestiary

/-! ## Paths of places -/

theorem pathBelow_of_ne {path : String} (h : path ≠ "") (name : String) :
    pathBelow path name = path ++ "/" ++ name := if_neg h

theorem foldl_pathBelow_of_ne {path : String} (h : path ≠ "") (place : Place) :
    place.foldl pathBelow path = "/".intercalate (path :: place) := by
  induction place generalizing path with
  | nil => exact String.intercalate_singleton.symm
  | cons name place ih =>
    rw [List.foldl_cons, pathBelow_of_ne h, ih (by simp [h]), String.intercalate_cons_cons,
      String.intercalate_cons_append]

/-- The path to a place is made of the names on the way. -/
theorem foldl_pathBelow_empty {place : Place} (h : ∀ name ∈ place, IsName name) :
    place.foldl pathBelow "" = "/".intercalate place := by
  cases place with
  | nil => exact String.intercalate_nil.symm
  | cons name place => exact foldl_pathBelow_of_ne (h name List.mem_cons_self).1 place

/-- The names on the way come back from the path to a place. -/
theorem intercalate_inj {p q : Place} (hp : p ≠ []) (hq : q ≠ [])
    (hpnames : ∀ name ∈ p, '/' ∉ name.toList) (hqnames : ∀ name ∈ q, '/' ∉ name.toList)
    (h : "/".intercalate p = "/".intercalate q) : p = q := by
  rw [← Text.split_intercalate hp hpnames, ← Text.split_intercalate hq hqnames]
  exact congrArg (Text.split '/') h

/-- **Different places have different paths.** -/
theorem foldl_pathBelow_inj {path : String} {p q : Place} (hp : p ≠ []) (hq : q ≠ [])
    (hpnames : ∀ name ∈ p, IsName name) (hqnames : ∀ name ∈ q, IsName name)
    (h : p.foldl pathBelow path = q.foldl pathBelow path) : p = q := by
  refine intercalate_inj hp hq (fun _ hn => (hpnames _ hn).2) (fun _ hn => (hqnames _ hn).2) ?_
  by_cases hpath : path = ""
  · subst hpath
    rwa [foldl_pathBelow_empty hpnames, foldl_pathBelow_empty hqnames] at h
  · rw [foldl_pathBelow_of_ne hpath, foldl_pathBelow_of_ne hpath,
      String.intercalate_cons_of_ne_nil hp, String.intercalate_cons_of_ne_nil hq] at h
    exact (String.append_right_inj _).mp h

namespace Entry

variable {e u : Entry} {place below : Place} {name path : String} {content : List UInt8}
  {entries : List (String × Entry)} {f : FileBelow}

/-! ## One folder -/

/-- What is found in one of the entries of a folder. -/
def filesOf (path : String) (e : String × Entry) : List FileBelow :=
  if e.1 = deletedFolder ∧ e.2.isFolder then [] else e.2.files (pathBelow path e.1)

theorem filesEach_eq_map (path : String) (entries : List (String × Entry)) :
    filesEach path entries = entries.map fun e => (e.1, filesOf path e) := by
  induction entries with
  | nil => rfl
  | cons e entries ih => rw [filesEach, ih]; rfl

/-- In a folder is found what is found in its entries, in whatever order they are gone through. -/
theorem files_folder_perm (path : String) (entries : List (String × Entry)) :
    ((folder entries).files path).Perm (entries.flatMap (filesOf path)) := by
  rw [files, inNameOrder, filesEach_eq_map]
  refine ((List.mergeSort_perm _ _).flatMap_right _).trans ?_
  rw [List.flatMap_map]

/-- A file in one of the entries of a folder is in a folder of deleted files if the entry is one, or
if it is in such a folder there. -/
theorem deletedFolder_mem_cons_iff (h : u.at? below = some (.file content)) :
    deletedFolder ∈ (name :: below).dropLast ↔
      (name = deletedFolder ∧ u.isFolder = true) ∨ deletedFolder ∈ below.dropLast := by
  cases below with
  | nil =>
    obtain rfl := Option.some.inj h
    simp [isFolder]
  | cons next below =>
    cases u with
    | file content => cases h
    | folder entries => simp [isFolder, eq_comm]

/-! ## The whole walk -/

/-- **What is found on a walk** are the files outside of the folders of deleted files, each by the
path that leads to it. -/
theorem mem_files_iff (h : e.IsTree) :
    f ∈ e.files path ↔ ∃ place content, e.at? place = some (.file content) ∧
      deletedFolder ∉ place.dropLast ∧ f = ⟨place.foldl pathBelow path, content⟩ := by
  induction e using Entry.induction generalizing path with
  | file c =>
    rw [files, List.mem_singleton]
    constructor
    · rintro rfl
      exact ⟨[], c, rfl, List.not_mem_nil, rfl⟩
    · rintro ⟨place, content, hat, -, rfl⟩
      cases place with
      | nil =>
        cases hat
        rfl
      | cons name place => cases hat
  | folder entries ih =>
    cases h with | folder hnodup hnames hbelow => ?_
    rw [(files_folder_perm path entries).mem_iff, List.mem_flatMap]
    constructor
    · rintro ⟨⟨name, u⟩, hmem, hf⟩
      unfold filesOf at hf
      split at hf
      · exact absurd hf List.not_mem_nil
      · rename_i hkept
        obtain ⟨below, content, hat, hbelowKept, rfl⟩ := (ih _ hmem (hbelow _ hmem)).mp hf
        refine ⟨name :: below, content, ?_, ?_, rfl⟩
        · rw [at?, Table.get?_of_mem hnodup hmem, Option.bind_some, hat]
        · rw [deletedFolder_mem_cons_iff hat, not_or]
          exact ⟨hkept, hbelowKept⟩
    · rintro ⟨place, content, hat, hkept, rfl⟩
      cases place with
      | nil => cases hat
      | cons name below =>
        obtain ⟨u, hu, hat⟩ := Option.bind_eq_some_iff.mp hat
        have hmem := Table.mem_of_get? hu
        rw [deletedFolder_mem_cons_iff hat, not_or] at hkept
        refine ⟨(name, u), hmem, ?_⟩
        rw [filesOf, if_neg hkept.1]
        exact (ih _ hmem (hbelow _ hmem)).mpr ⟨below, content, hat, hkept.2, rfl⟩

/-- What is found in an entry of a folder has the name of the entry on its path. -/
theorem exists_below_of_mem_filesOf (h : u.IsTree) (hname : IsName name)
    (hf : f ∈ filesOf path (name, u)) :
    ∃ below : Place, (∀ n ∈ name :: below, IsName n) ∧
      f.path = (name :: below).foldl pathBelow path := by
  unfold filesOf at hf
  split at hf
  · exact absurd hf List.not_mem_nil
  · obtain ⟨below, content, hat, -, rfl⟩ := (mem_files_iff h).mp hf
    exact ⟨below, List.forall_mem_cons.mpr ⟨hname, (h.at? hat).2⟩, rfl⟩

/-- **No path is found twice.** -/
theorem nodup_files (h : e.IsTree) (path : String) :
    ((e.files path).map FileBelow.path).Nodup := by
  induction e using Entry.induction generalizing path with
  | file c => exact List.nodup_singleton _
  | folder entries ih =>
    cases h with | folder hnodup hnames hbelow => ?_
    rw [((files_folder_perm path entries).map _).nodup_iff, List.map_flatMap, List.nodup_flatMap]
    constructor
    · intro e he
      unfold filesOf
      split
      · exact List.nodup_nil
      · exact ih e he (hbelow e he) _
    · refine (List.pairwise_map.mp hnodup).imp_of_mem fun {a b} ha hb hne => ?_
      -- A path that is found in both entries would begin with both names.
      intro p hp hp'
      obtain ⟨f, hf, rfl⟩ := List.mem_map.mp hp
      obtain ⟨g, hg, hpath⟩ := List.mem_map.mp hp'
      obtain ⟨pa, hpa, hfpath⟩ := exists_below_of_mem_filesOf (hbelow a ha) (hnames a ha) hf
      obtain ⟨pb, hpb, hgpath⟩ := exists_below_of_mem_filesOf (hbelow b hb) (hnames b hb) hg
      rw [hfpath, hgpath] at hpath
      exact hne (List.cons.inj
        (foldl_pathBelow_inj (List.cons_ne_nil _ _) (List.cons_ne_nil _ _) hpb hpa hpath)).1.symm

end Entry

end Bestiary
