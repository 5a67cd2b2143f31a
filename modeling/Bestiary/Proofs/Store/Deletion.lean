import Bestiary.Proofs.Store.Kept
import Bestiary.Proofs.Text.Digits

/-!
# What becomes of deleted files

A file that is deleted is moved into the bin of its folder. If its name is taken there, the time is
put in front of it; whether that name is taken too is not asked, so that of three files of one name
that are deleted within a second, the third replaces the second. Apart from that, files that were
deleted stay, whatever else is saved, created and deleted.

* `MobFile.Deletes` says what becomes of a file; `MobFile.on_delete` proves it of every deletion.
* `FileCall` is a call that works on files, `FileCall.seen_after` says which files it leaves.
* `Disk.afterCalls_accounts` says what becomes of each deleted file after any calls, and which files
  stay.
-/

namespace Bestiary

namespace MobFile

open OnDisk

/-- The place of the folder for deleted files of a folder. -/
def bin (folder : Place) : Place := folder ++ [deletedFolder]

/-- A name with a time in front. -/
def stamped (stamp name : String) : String := s!"{stamp}.{name}"

variable {d : Disk} {stamp path : String} {content : List UInt8} {folder : Place} {name : String}

/-- Both names that a deleted file may get are taken. -/
def Clash (d : Disk) (stamp : String) (folder : Place) (name : String) : Prop :=
  ∀ taken ∈ [name, stamped stamp name], (Entry.seen d (bin folder ++ [taken])).isSome

instance : Decidable (Clash d stamp folder name) :=
  inferInstanceAs (Decidable (∀ taken ∈ [name, stamped stamp name], _))

/-- The name that a deleted file gets. -/
def binnedName (d : Disk) (stamp : String) (folder : Place) (name : String) : String :=
  if (Entry.seen d (bin folder ++ [name])).isSome then stamped stamp name else name

/-- The place that a deleted file gets. -/
def binned (d : Disk) (stamp : String) (folder : Place) (name : String) : Place :=
  bin folder ++ [binnedName d stamp folder name]

/-- A file is in the way of the bin, or a folder is in the way of the deleted file. -/
def Blocked (d : Disk) (stamp : String) (folder : Place) (name : String) : Prop :=
  (∃ content, Entry.seen d (bin folder) = some (some content)) ∨
    Entry.seen d (binned d stamp folder name) = some none

/-- The place of a deleted file is free, unless both names are taken. -/
theorem seen_binned_eq_none_iff :
    Entry.seen d (binned d stamp folder name) = none ↔ ¬Clash d stamp folder name := by
  rw [binned, binnedName, Clash, List.forall_mem_cons, List.forall_mem_singleton]
  split <;> simp_all

/-- In the bin of a folder, nothing is at a place of the folder. -/
theorem ne_binned : folder ++ [name] ≠ bin folder ++ [binnedName d stamp folder name] := by
  simp [bin]

/-! ## One deletion -/

/-- The path that a deleted file gets. -/
def binnedPath (d : Disk) (stamp path : String) : String :=
  let bin := joinPath (folderOf path) deletedFolder
  if d.contains (joinPath bin (nameIn path)) then joinPath bin (stamped stamp (nameIn path))
  else joinPath bin (nameIn path)

/-- The steps of a deletion. -/
theorem on_delete_eq (stamp path : String) (d : Disk) :
    (delete stamp path).on d =
      if !d.contains path then (.error (.notFound path), d)
      else
        match Disk.makeFolders d (joinPath (folderOf path) deletedFolder) with
        | .error e => (.error (.disk e), d)
        | .ok made =>
          match Disk.rename made path (binnedPath made stamp path) with
          | .error e => (.error (.disk e), made)
          | .ok moved => (.ok (binnedPath made stamp path), moved) := by
  unfold delete
  rw [on_bind, on_contains]
  simp only
  cases hthere : d.contains path with
  | false => rfl
  | true =>
    simp only [Bool.not_true, Bool.false_eq_true, if_false, on_bind, on_step]
    cases Disk.makeFolders d (joinPath (folderOf path) deletedFolder) with
    | error e => rfl
    | ok made =>
      simp only [on_contains]
      cases hrename : Disk.rename made path (binnedPath made stamp path) with
      | error e =>
        simp only [binnedPath, stamped] at hrename
        rw [hrename]
      | ok moved =>
        simp only [binnedPath, stamped] at hrename
        rw [hrename]
        rfl

/-- The path of the bin beside a file. -/
theorem joinPath_bin (hpath : simplified (folderOf path) = folder) :
    joinPath (folderOf path) deletedFolder = partsText (bin folder) := by
  rw [joinPath_name _ .deletedFolder, hpath, bin]

theorem on_delete_file (hplace : d.place? path = some (folder ++ [name]))
    (hseen : Entry.seen d (folder ++ [name]) = some (some content)) (stamp : String) :
    (delete stamp path).on d =
      match Disk.makeFolders d (partsText (bin folder)) with
      | .error e => (.error (.disk e), d)
      | .ok made =>
        match Disk.rename made path (binnedPath made stamp path) with
        | .error e => (.error (.disk e), made)
        | .ok moved => (.ok (binnedPath made stamp path), moved) := by
  have hthere : d.contains path = true := by
    rw [Disk.contains_of_place hplace, hseen]
    rfl
  rw [on_delete_eq, hthere, joinPath_bin (Disk.split_of_place? hplace hseen).1]
  rfl

/-- The deletion moves the file of a folder, as it is, to the place that it gets, and nothing else
changes but that the bin is there. -/
def MovesToBin (stamp path : String) (content : List UInt8) (folder : Place) (name : String)
    (d : Disk) : Prop :=
  ∃ d' target, (delete stamp path).on d = (.ok target, d') ∧
    d'.place? target = some (binned d stamp folder name) ∧
    ∀ place, Entry.seen d' place =
      if place = binned d stamp folder name then some (some content)
      else if place = folder ++ [name] then none
      else if place = bin folder then some none else Entry.seen d place

/-- What becomes of a file of a folder, which a path leads to, when it is deleted. -/
structure Deletes (stamp path : String) (content : List UInt8) (folder : Place) (name : String)
    (d : Disk) : Prop where
  /-- It gets a place that is free, unless both names are taken. -/
  free : Entry.seen d (binned d stamp folder name) = none ↔ ¬Clash d stamp folder name
  /-- It is moved there. -/
  moved : ¬Blocked d stamp folder name → MovesToBin stamp path content folder name d
  /-- If that cannot be, nothing changes. -/
  refused : Blocked d stamp folder name → ∃ e, (delete stamp path).on d = (.error e, d)

/-- A disk has the bin of a folder, and is otherwise like another one. -/
def HasBin (folder : Place) (d made : Disk) : Prop :=
  ∀ place, Entry.seen made place = if place = bin folder then some none else Entry.seen d place

namespace HasBin

variable {made : Disk}

theorem seen_bin (h : HasBin folder d made) : Entry.seen made (bin folder) = some none := by
  rw [h, if_pos rfl]

theorem seen_below (h : HasBin folder d made) (other : String) :
    Entry.seen made (bin folder ++ [other]) = Entry.seen d (bin folder ++ [other]) := by
  rw [h, if_neg (by simp)]

theorem binned_eq (h : HasBin folder d made) (stamp name : String) :
    binned made stamp folder name = binned d stamp folder name := by
  rw [binned, binned, binnedName, binnedName, h.seen_below]

theorem place?_eq {place : Place} (h : HasBin folder d made) (hplace : d.place? path = some place) :
    made.place? path = some place := by
  refine Disk.place?_of_folders (fun other hfolder => ?_) hplace
  rw [h, hfolder, ite_self]

end HasBin

/-- The bin is made if it is not there, unless a file is in its way. -/
theorem makeFolders_bin (hsteps : ∀ part ∈ folder, IsStep part)
    (hfolder : Entry.seen d folder = some none) :
    (∃ content e, Entry.seen d (bin folder) = some (some content) ∧
      Disk.makeFolders d (partsText (bin folder)) = .error e) ∨
    ∃ made, Disk.makeFolders d (partsText (bin folder)) = .ok made ∧ HasBin folder d made ∧
      (∀ content, Entry.seen d (bin folder) ≠ some (some content)) ∧
      (Entry.seen d (bin folder) = some none → made = d) := by
  have hmake := Disk.makeFolders_partsText hfolder hsteps .deletedFolder
  rw [← bin] at hmake
  rcases hbin : Entry.seen d (bin folder) with _ | _ | content <;> rw [hbin] at hmake
  · exact .inr ⟨_, hmake, Entry.seen_put_folder hfolder (by rw [← bin, hbin]; simp), by simp, nofun⟩
  · refine .inr ⟨d, hmake, fun place => ?_, by simp, fun _ => rfl⟩
    split
    · rename_i h
      rw [h, hbin]
    · rfl
  · exact .inl ⟨content, _, rfl, hmake⟩

/-- Once the bin is there, the path that a deleted file gets is that of its place. -/
theorem binnedPath_eq (hpath : simplified (folderOf path) = folder) (hname : nameIn path = name)
    (hsteps : ∀ part ∈ folder ++ [name], IsStep part) (hstamped : IsStep (stamped stamp name))
    (hbin : Entry.seen d (bin folder) = some none) :
    binnedPath d stamp path = partsText (binned d stamp folder name) ∧
      d.place? (partsText (binned d stamp folder name)) = some (binned d stamp folder name) := by
  have hbinNames : ∀ part ∈ bin folder, IsStep part :=
    .concat (fun part hpart => hsteps part (List.mem_append_left _ hpart)) .deletedFolder
  have hown : IsStep name := hsteps name (by simp)
  have hnew : IsStep (binnedName d stamp folder name) := by
    unfold binnedName
    split
    · exact hstamped
    · exact hown
  have hcontains : d.contains (partsText (bin folder ++ [name])) =
      (Entry.seen d (bin folder ++ [name])).isSome :=
    Disk.contains_of_place (Disk.place?_partsText hbin hbinNames hown)
  refine ⟨?_, Disk.place?_partsText hbin hbinNames hnew⟩
  simp only [binnedPath, joinPath_bin hpath, hname, joinPath_partsText hbinNames hown, hcontains,
    binned, binnedName]
  split
  · exact joinPath_partsText hbinNames hstamped
  · rfl

/-- A deletion once the bin is there. -/
theorem on_delete_made {made : Disk} (hplace : d.place? path = some (folder ++ [name]))
    (hseen : Entry.seen d (folder ++ [name]) = some (some content))
    (hstamped : IsStep (stamped stamp name))
    (hmake : Disk.makeFolders d (partsText (bin folder)) = .ok made)
    (hmade : HasBin folder d made)
    (hnoFile : ∀ content, Entry.seen d (bin folder) ≠ some (some content)) :
    (Entry.seen d (binned d stamp folder name) = some none →
      ∃ e, (delete stamp path).on d = (.error e, made)) ∧
    (Entry.seen d (binned d stamp folder name) ≠ some none →
      MovesToBin stamp path content folder name d) := by
  obtain ⟨hpath, hname⟩ := Disk.split_of_place? hplace hseen
  obtain ⟨hbinnedPath, htarget⟩ :=
    binnedPath_eq hpath hname (Disk.isStep_of_place? hplace) hstamped hmade.seen_bin
  rw [hmade.binned_eq] at hbinnedPath htarget
  have hplace' := hmade.place?_eq hplace
  have hsource : folder ++ [name] ≠ bin folder := fun heq => hnoFile content (heq ▸ hseen)
  have hlook : made.look path = some (some content) := by
    rw [Disk.look_of_place hplace', hmade, if_neg hsource, hseen]
  have hon : (delete stamp path).on d =
      match Disk.rename made path (partsText (binned d stamp folder name)) with
      | .error e => (.error (.disk e), made)
      | .ok moved => (.ok (partsText (binned d stamp folder name)), moved) := by
    rw [on_delete_file hplace hseen, hmake, ← hbinnedPath]
  constructor
  · intro hfolder
    have hrename := Disk.rename_file hplace' htarget ne_binned hlook hmade.seen_bin
    rw [hmade.seen_below, ← binned, if_pos hfolder] at hrename
    rw [hon, hrename]
    exact ⟨_, rfl⟩
  · intro hfree
    rw [binned, ← hmade.seen_below] at hfree
    obtain ⟨moved, hmoved, hsame, hmovedSeen⟩ :=
      Disk.exists_rename hplace' htarget ne_binned hlook hmade.seen_bin hfree
    rw [hmoved] at hon
    have hplaces := hsame [folder ++ [name], binned d stamp folder name] (by simp)
      (by simp [binned])
    refine ⟨moved, _, hon, (hplaces.place?_eq _).trans htarget, fun place => ?_⟩
    rw [hmovedSeen, hmade]
    rfl

/-- **A file that is deleted** is moved into the bin as it is, or nothing changes. -/
theorem on_delete (hplace : d.place? path = some (folder ++ [name]))
    (hseen : Entry.seen d (folder ++ [name]) = some (some content))
    (hstamped : IsStep (stamped stamp name)) : Deletes stamp path content folder name d := by
  have hsteps : ∀ part ∈ folder, IsStep part := fun part hpart =>
    Disk.isStep_of_place? hplace part (List.mem_append_left _ hpart)
  rcases makeFolders_bin hsteps (Entry.seen_of_below hseen) with
    ⟨old, e, hfile, hmake⟩ | ⟨made, hmake, hmade, hnoFile, hthere⟩
  · have hblocked : Blocked d stamp folder name := .inl ⟨old, hfile⟩
    refine ⟨seen_binned_eq_none_iff, fun h => absurd hblocked h, fun _ => ?_⟩
    rw [on_delete_file hplace hseen, hmake]
    exact ⟨_, rfl⟩
  · obtain ⟨hrefused, hmoved⟩ := on_delete_made hplace hseen hstamped hmake hmade hnoFile
    refine ⟨seen_binned_eq_none_iff, fun h => hmoved fun hfolder => h (.inr hfolder), ?_⟩
    rintro (⟨old, hfile⟩ | hfolder)
    · exact absurd hfile (hnoFile old)
    · -- With a folder in it, the bin was there before.
      obtain rfl := hthere (Entry.seen_of_below hfolder)
      exact hrefused hfolder

end MobFile

/-! ## Calls -/

/-- The time in seconds as a text has no slash in it. -/
theorem isStep_stamped {name : String} (hname : IsStep name) (seconds : Int) :
    IsStep (MobFile.stamped (toString seconds) name) := by
  have hdigits : ∀ n, '/' ∉ Nat.toDigits 10 n := fun n hmem =>
    absurd (Text.isDigit_of_mem_toDigits hmem) (by decide)
  show IsStep (toString seconds ++ "." ++ name)
  refine hname.dotted (fun hempty => ?_) ?_
  · have hpos : 0 < (toString seconds).length := by
      rw [Int.toString_eq_repr, Int.repr_eq_if]
      split
      · exact Nat.length_repr_pos
      · rw [String.length_append]
        exact Nat.add_pos_left (by decide) _
    rw [hempty] at hpos
    exact absurd hpos (by decide)
  · rw [Int.toString_eq_repr, Int.repr_eq_if]
    split <;> simp [hdigits]

/-- A call that works on a file, a deletion at some time in seconds. -/
inductive FileCall where
  | save (path : String) (document : Table Value)
  | create (path name : String) (kind : DocumentKind)
  | delete (seconds : Int) (path : String)

namespace FileCall

open OnDisk

variable {call : FileCall} {place : Place} {d : Disk} {content : List UInt8}

/-- The disk after a call, whatever came of it. -/
def after (d : Disk) : FileCall → Disk
  | save path document => ((MobFile.save path document).on d).2
  | create path name kind => ((MobFile.create path name kind).on d).2
  | delete seconds path => ((MobFile.delete (toString seconds) path).on d).2

/-- The call is made for what is at a place: it saves or creates a document there, or its copy or
draft, or it deletes what is there or a folder above. -/
def Names (place : Place) : FileCall → Prop
  | save path _ | create path _ _ => ∃ own ∈ MobFile.savePaths path, simplified own = place
  | delete _ path => simplified path <+: place

instance : Decidable (call.Names place) :=
  match call with
  | save _ _ | create _ _ _ => inferInstanceAs (Decidable (∃ own ∈ _, _))
  | delete _ _ => inferInstanceAs (Decidable (_ <+: _))

/-- The call deletes a file that gets a place although both names are taken. -/
def Replaces (place : Place) (d : Disk) : FileCall → Prop
  | delete seconds path => ∃ folder name content,
      d.place? path = some (folder ++ [name]) ∧
        Entry.seen d (folder ++ [name]) = some (some content) ∧
        MobFile.Clash d (toString seconds) folder name ∧
        MobFile.binned d (toString seconds) folder name = place
  | _ => False

/-- A deletion of a file leaves all files that it is not made for and does not replace. -/
theorem seen_of_deleted_file {seconds : Int} {path : String} {old : List UInt8}
    (hnames : ¬Names place (delete seconds path))
    (hreplaces : ¬Replaces place d (delete seconds path))
    (hold : d.look path = some (some old)) (h : Entry.seen d place = some (some content)) :
    Entry.seen ((delete seconds path).after d) place = some (some content) := by
  obtain ⟨folder, name, hplace, -⟩ := Disk.exists_place_of_look hold
  rw [Disk.look_of_place hplace] at hold
  have hname : IsStep name := Disk.isStep_of_place? hplace name (by simp)
  have hdeletes := MobFile.on_delete hplace hold (isStep_stamped hname seconds)
  rw [after]
  by_cases hblocked : MobFile.Blocked d (toString seconds) folder name
  · obtain ⟨e, he⟩ := hdeletes.refused hblocked
    rw [he, h]
  obtain ⟨d', target, hmoved, -, hseen⟩ := hdeletes.moved hblocked
  have hother : place ≠ MobFile.binned d (toString seconds) folder name := by
    rintro rfl
    by_cases hclash : MobFile.Clash d (toString seconds) folder name
    · exact hreplaces ⟨folder, name, old, hplace, hold, hclash, rfl⟩
    · exact absurd (h.symm.trans (hdeletes.free.mpr hclash)) (by simp)
  have hsource : place ≠ folder ++ [name] := by
    rintro rfl
    exact hnames (Disk.simplified_of_place? hplace ▸ List.prefix_rfl)
  have hbin : place ≠ MobFile.bin folder := by
    rintro rfl
    exact hblocked (.inl ⟨content, h⟩)
  rw [hmoved, hseen, if_neg hother, if_neg hsource, if_neg hbin, h]

/-- A folder that is deleted takes no place of a file. -/
theorem seen_of_deleted_folder {seconds : Int} {path : String}
    (hnames : ¬Names place (delete seconds path)) (hfolder : d.look path = some none)
    (h : Entry.seen d place = some (some content)) :
    Entry.seen ((delete seconds path).after d) place = some (some content) := by
  obtain ⟨source, hsource, hseen⟩ := Option.bind_eq_some_iff.mp hfolder
  rw [after, MobFile.on_delete_eq]
  split
  · exact h
  cases hmake : Disk.makeFolders d (joinPath (folderOf path) deletedFolder) with
  | error e => exact h
  | ok made =>
    have hmade := Disk.seen_of_makeFolders hmake h
    have hsource' : made.place? path = some source :=
      Disk.place?_of_folders (fun _ => Disk.seen_of_makeFolders hmake) hsource
    have hlook : made.look path = some none :=
      (Disk.look_of_place hsource').trans (Disk.seen_of_makeFolders hmake hseen)
    simp only
    cases hrename : Disk.rename made path (MobFile.binnedPath made (toString seconds) path) with
    | error e => exact hmade
    | ok moved =>
      refine Disk.seen_of_rename hrename (fun src hsrc => ?_) (fun hfile => ?_) hmade
      · rw [← Disk.simplified_of_place? hsrc]
        exact hnames
      · obtain ⟨old, hold⟩ := hfile
        exact absurd (hlook.symm.trans hold) (by simp)

/-- A deletion leaves a file that it is not made for and does not replace. -/
theorem seen_of_delete {seconds : Int} {path : String}
    (hnames : ¬Names place (delete seconds path))
    (hreplaces : ¬Replaces place d (delete seconds path))
    (h : Entry.seen d place = some (some content)) :
    Entry.seen ((delete seconds path).after d) place = some (some content) := by
  match hlook : d.look path with
  | some (some old) => exact seen_of_deleted_file hnames hreplaces hlook h
  | some none => exact seen_of_deleted_folder hnames hlook h
  | none =>
    have habsent : d.contains path = false := by
      rw [Bool.eq_false_iff, Ne, Disk.contains_iff, hlook]
      simp
    rw [after, MobFile.on_delete_eq, habsent]
    exact h

/-- **A call leaves a file** that it is not made for and does not replace. -/
theorem seen_after (hnames : ¬call.Names place) (hreplaces : ¬call.Replaces place d)
    (h : Entry.seen d place = some (some content)) :
    Entry.seen (call.after d) place = some (some content) := by
  cases call with
  | save path document =>
    exact MobFile.keeps_save document (fun own hown heq => hnames ⟨own, hown, heq⟩) d content h
  | create path name kind =>
    exact MobFile.keeps_create name kind (fun own hown heq => hnames ⟨own, hown, heq⟩) d content h
  | delete seconds path => exact seen_of_delete hnames hreplaces h

end FileCall

namespace Disk

/-- The disk after calls, whatever came of them. -/
def afterCalls (d : Disk) (calls : List FileCall) : Disk := calls.foldl FileCall.after d

/-- A file stays through calls, none of which is made for it or replaces it. -/
theorem seen_afterCalls {calls : List FileCall} {place : Place} {d : Disk} {content : List UInt8}
    (hcalls : ∀ before call after, calls = before ++ call :: after →
      ¬call.Names place ∧ ¬call.Replaces place (d.afterCalls before))
    (h : Entry.seen d place = some (some content)) :
    Entry.seen (d.afterCalls calls) place = some (some content) := by
  induction calls generalizing d with
  | nil => exact h
  | cons call calls ih =>
    obtain ⟨hnames, hreplaces⟩ := hcalls [] call calls rfl
    refine ih (fun before next after heq => ?_) (FileCall.seen_after hnames hreplaces h)
    exact hcalls (call :: before) next after (by rw [heq, List.cons_append])

/-- **What becomes of files when documents are saved, created and deleted**, in whatever order and
at whatever times. A file that is deleted is moved as it is to a place that is free, unless both its
name and that with the time in front are taken in the bin. A file in the bin or anywhere else stays,
unless a call is made for it, or a deletion with both names taken puts another one in its place. -/
theorem afterCalls_accounts (d : Disk) (calls : List FileCall) :
    (∀ seconds path content, look (d.afterCalls calls) path = some (some content) →
      ∃ folder name, place? (d.afterCalls calls) path = some (folder ++ [name]) ∧
        MobFile.Deletes (toString (seconds : Int)) path content folder name
          (d.afterCalls calls)) ∧
    ∀ place content, Entry.seen d place = some (some content) →
      (∀ before call after, calls = before ++ call :: after →
        ¬call.Names place ∧ ¬call.Replaces place (d.afterCalls before)) →
      Entry.seen (d.afterCalls calls) place = some (some content) := by
  refine ⟨fun seconds path content hlook => ?_, fun place content h hcalls =>
    seen_afterCalls hcalls h⟩
  obtain ⟨folder, name, hplace, -⟩ := exists_place_of_look hlook
  rw [look_of_place hplace] at hlook
  have hname : IsStep name := isStep_of_place? hplace name (by simp)
  exact ⟨folder, name, hplace, MobFile.on_delete hplace hlook (isStep_stamped hname seconds)⟩

/-- Two mobs of a folder, and a mob of the folder that was deleted earlier. -/
def nest : Disk :=
  .folder [("a", .folder [("moth.mob", .file [1]), ("wing.mob", .file [2]),
    (".deleted", .folder [("moth.mob", .file [0])])])]

/-- A mob is deleted, and then another one; the mob that was deleted earlier stays. -/
theorem afterCalls_accounts_nest :
    (∃ folder name, place? (nest.afterCalls [.delete 5 "a/moth.mob"]) "a/wing.mob" =
        some (folder ++ [name]) ∧
      MobFile.Deletes "5" "a/wing.mob" [2] folder name
        (nest.afterCalls [.delete 5 "a/moth.mob"])) ∧
    Entry.seen (nest.afterCalls [.delete 5 "a/moth.mob"]) ["a", ".deleted", "moth.mob"] =
      some (some [0]) := by
  obtain ⟨hdeletes, hstays⟩ := afterCalls_accounts nest [.delete 5 "a/moth.mob"]
  refine ⟨hdeletes 5 "a/wing.mob" [2] (by decide +kernel),
    hstays ["a", ".deleted", "moth.mob"] [0] (by decide +kernel) fun before call after hcall => ?_⟩
  obtain ⟨rfl, rfl, -⟩ : before = [] ∧ call = .delete 5 "a/moth.mob" ∧ after = [] := by
    cases before <;> simp_all
  refine ⟨by decide +kernel, ?_⟩
  rintro ⟨folder, name, content, hplace, -, hclash, -⟩
  have hat : ["a"] ++ ["moth.mob"] = folder ++ [name] :=
    Option.some.inj ((by decide +kernel : _ = _).trans hplace)
  obtain ⟨rfl, hname⟩ := List.append_inj' hat rfl
  obtain rfl := List.singleton_inj.mp hname
  exact absurd hclash (by decide +kernel)

/-- A mob that is deleted, saved again and deleted again within a second: what was deleted first is
not in the bin any more. -/
theorem afterCalls_replaces :
    Entry.seen (nest.afterCalls [.delete 5 "a/moth.mob", .save "a/moth.mob" []])
        ["a", ".deleted", "5.moth.mob"] = some (some [1]) ∧
      Entry.seen (nest.afterCalls
        [.delete 5 "a/moth.mob", .save "a/moth.mob" [], .delete 5 "a/moth.mob"])
        ["a", ".deleted", "5.moth.mob"] = some (some [10]) := by
  have hempty : Toml.write [] = .ok "\n" := by cbv
  have hsave : MobFile.save "a/moth.mob" [] = MobFile.writeText "a/moth.mob" "\n" := by
    rw [MobFile.save, hempty]
  simp only [afterCalls, List.foldl_cons, List.foldl_nil, FileCall.after, hsave]
  decide +kernel

end Disk

end Bestiary
