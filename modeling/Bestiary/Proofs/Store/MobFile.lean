import Bestiary.Proofs.Store.Disk
import Bestiary.Store.MobFile

/-!
# What writing a file leaves on the disk

A file that is written over is copied aside, its new content is written beside it, and takes its
place at the end. Each of these steps may fail; whatever comes of them, the file has its old content
or its new one, and nothing is touched but the file, the copy and the draft.

* `OnDisk.on` carries work on a disk out; `OnDisk.on_bind` and its like say how steps follow on each
  other.
* `OnDisk.Looks` says of work that it leaves the disk.
* `MobFile.on_writeText` is the account of a text that is written over a file.
-/

namespace Bestiary

namespace OnDisk

variable {α β : Type}

/-- Work carried out on a disk: what comes of it, and the disk after it. -/
def on (work : OnDisk α) (d : Disk) : Except FileError α × Disk := work.run.run d

/-- What comes after a step is done on the disk that the step leaves, unless the step has failed. -/
theorem on_bind (work : OnDisk α) (next : α → OnDisk β) (d : Disk) :
    (work >>= next).on d =
      match work.on d with
      | (.ok a, d') => (next a).on d'
      | (.error e, d') => (.error e, d') := by
  unfold on
  rw [ExceptT.run_bind, StateT.run_bind]
  cases h : work.run.run d with
  | mk result d' => cases result <;> rfl

theorem on_look (f : Disk → Except DiskError α) (d : Disk) :
    (look f).on d = ((f d).mapError .disk, d) := by
  unfold look
  rw [on_bind]
  show OnDisk.on _ d = _
  cases f d <;> rfl

theorem on_step (f : Disk → Except DiskError Disk) (d : Disk) :
    (step f).on d = match f d with
      | .ok d' => (.ok (), d')
      | .error e => (.error (.disk e), d) := by
  unfold step
  rw [on_bind, on_look]
  cases f d <;> rfl

@[simp] theorem on_contains (path : String) (d : Disk) :
    (contains path).on d = (.ok (Disk.contains d path), d) := rfl

/-- Work that leaves the disk, whatever comes of it. -/
def Looks (work : OnDisk α) : Prop := ∀ d, (work.on d).2 = d

theorem looks_look (f : Disk → Except DiskError α) : (look f).Looks := fun d => by rw [on_look]

theorem looks_contains (path : String) : (contains path).Looks := fun _ => rfl

end OnDisk

namespace MobFile

open OnDisk

/-- **A document is loaded from a file**, and the disk is left. -/
theorem on_load (path : String) (d : Disk) :
    (load path).on d =
      (match d.look path with
        | some (some content) => (Toml.parseBytes content (some path)).mapError .unreadable
        | some none => .error (.disk (.folder "read"))
        | none => .error (.notFound path), d) := by
  have hcontains : d.contains path = (d.look path).isSome := by
    rw [Bool.eq_iff_iff, Disk.contains_iff, Option.isSome_iff_exists]
  unfold load
  rw [on_bind, on_contains, hcontains]
  cases hlook : d.look path with
  | none => rfl
  | some seen =>
    simp only [Option.isSome_some, Bool.not_true, Bool.false_eq_true, if_false, on_bind, on_look,
      Disk.read_eq, hlook]
    cases seen with
    | none => rfl
    | some content =>
      simp only [Except.mapError]
      cases Toml.parseBytes content (some path) <;> rfl

theorem looks_load (path : String) : (load path).Looks := fun d => by rw [on_load]

/-- A document that is loaded is what the content of a file says. -/
theorem exists_look_of_load {path : String} {d : Disk} {t : Table Value}
    (h : ((load path).on d).1 = .ok t) :
    ∃ content, d.look path = some (some content) ∧
      Toml.parseBytes content (some path) = .ok t := by
  rw [on_load] at h
  cases hlook : d.look path with
  | none => simp [hlook] at h
  | some seen =>
    cases seen with
    | none => simp [hlook] at h
    | some content =>
      refine ⟨content, rfl, ?_⟩
      simp only [hlook] at h
      cases hparse : Toml.parseBytes content (some path) with
      | error e => simp [hparse, Except.mapError] at h
      | ok t' => simpa [hparse, Except.mapError] using h

/-! ## A file, its copy and its draft -/

/-- A path leads to a name in a folder, and its copy and its draft have longer names there. -/
structure Beside (path : String) (folder : Place) (name : String) (d : Disk) : Prop where
  file : d.place? path = some (folder ++ [name])
  copy : d.place? (backupOf path) = some (folder ++ [name ++ ".bak"])
  draft : d.place? (draftOf path) = some (folder ++ [name ++ ".tmp"])
  folder : Entry.seen d folder = some none

/-- The places of a file, of its copy and of its draft. -/
def placesBeside (folder : Place) (name : String) : List Place :=
  [folder ++ [name], folder ++ [name ++ ".bak"], folder ++ [name ++ ".tmp"]]

variable {path : String} {content : List UInt8} {folder : Place} {name : String} {d d' : Disk}

/-- The copy and the draft of a file are in its folder. -/
theorem exists_beside (h : d.look path = some (some content)) :
    ∃ folder name, Beside path folder name d := by
  obtain ⟨folder, name, hfile, hfolder, hlonger⟩ := Disk.exists_place_of_look h
  exact ⟨folder, name, hfile, hlonger ".bak" (by decide) (by decide),
    hlonger ".tmp" (by decide) (by decide), hfolder⟩

/-- They stay where they are when files change. -/
theorem Beside.of_sameBut {places : List Place} (h : Beside path folder name d)
    (hsame : Disk.SameBut places d d') : Beside path folder name d' :=
  ⟨(hsame.place?_eq _).trans h.file, (hsame.place?_eq _).trans h.copy,
    (hsame.place?_eq _).trans h.draft, (hsame.folders _).mpr h.folder⟩

theorem Beside.differsOnlyAt (h : Beside path folder name d)
    (hsame : Disk.SameBut (placesBeside folder name) d d') :
    d.DiffersOnlyAt [path, backupOf path, draftOf path] d' := by
  refine hsame.differsOnlyAt fun place hplace => ?_
  simp only [placesBeside, List.mem_cons, List.not_mem_nil, or_false] at hplace
  rcases hplace with rfl | rfl | rfl
  · exact ⟨path, by simp, h.file⟩
  · exact ⟨backupOf path, by simp, h.copy⟩
  · exact ⟨draftOf path, by simp, h.draft⟩

/-! ## Writing over a file -/

/-- What is left of a text that was to be written over a file with some content. -/
structure Written (path text : String) (content : List UInt8) (d : Disk)
    (result : Except FileError Unit) (d' : Disk) : Prop where
  /-- Nothing is touched but the file, its copy and its draft. -/
  frame : d.DiffersOnlyAt [path, backupOf path, draftOf path] d'
  /-- When all went well, the file has the text, the copy has what was in the file, and the draft is
  gone. -/
  done : result = .ok () → d'.look path = some (some (Text.encode text)) ∧
    d'.look (backupOf path) = some (some content) ∧ d'.look (draftOf path) = none
  /-- When something failed, the file is as it was. -/
  failed : ∀ e, result = .error e → d'.look path = some (some content)

/-- The steps of writing a text over a file with some content. -/
theorem on_writeText_eq (h : d.look path = some (some content)) (text : String) :
    (writeText path text).on d =
      match d.write (backupOf path) content with
      | .error e => (.error (.disk e), d)
      | .ok copied =>
        match copied.write (draftOf path) (Text.encode text) with
        | .error e => (.error (.disk e), copied)
        | .ok drafted =>
          match drafted.rename (draftOf path) path with
          | .error e => (.error (.disk e), drafted)
          | .ok moved => (.ok (), moved) := by
  have hcontains : d.contains path = true := Disk.contains_iff.mpr ⟨_, h⟩
  have hread : d.read path = .ok content := Disk.read_eq_ok_iff.mpr h
  unfold writeText
  simp only [on_bind, on_contains, hcontains, if_true, on_look, hread, Except.mapError, on_step]
  cases d.write (backupOf path) content with
  | error e => rfl
  | ok copied =>
    simp only
    cases copied.write (draftOf path) (Text.encode text) with
    | error e => rfl
    | ok drafted =>
      simp only
      cases drafted.rename (draftOf path) path <;> rfl

/-- A longer name is another place. -/
theorem longer_ne (folder : Place) (name : String) {more : String} (h : more ≠ "") :
    folder ++ [name ++ more] ≠ folder ++ [name] := by
  intro heq
  have hname : name ++ more = name := by simpa using heq
  exact h (by simpa using congrArg String.length hname)

/-- **A text is written over a file as a whole or not at all.** -/
theorem on_writeText (h : d.look path = some (some content)) (text : String) :
    Written path text content d ((writeText path text).on d).1 ((writeText path text).on d).2 := by
  obtain ⟨folder, name, hat⟩ := exists_beside h
  have hcopyPlace : folder ++ [name ++ ".bak"] ≠ folder ++ [name] := longer_ne _ _ (by decide)
  have hdraftPlace : folder ++ [name ++ ".tmp"] ≠ folder ++ [name] := longer_ne _ _ (by decide)
  have hapart : folder ++ [name ++ ".bak"] ≠ folder ++ [name ++ ".tmp"] := by simp
  rw [on_writeText_eq h]
  -- Either write may fail, with a folder in its way; then the file was not touched yet. The move
  -- cannot fail, since both its ends are files by then.
  rcases Disk.write_cases hat.copy hat.folder content with
    ⟨e, he⟩ | ⟨copied, hcopied, hsame₁, hseen₁⟩
  · rw [he]
    exact ⟨.refl _ d, nofun, fun _ _ => h⟩
  have hsame₁ := hsame₁ (placesBeside folder name) (by simp [placesBeside])
  have hat₁ := hat.of_sameBut hsame₁
  have hfile₁ : copied.look path = some (some content) := by
    rw [Disk.look_of_place hat₁.file, hseen₁, if_neg hcopyPlace.symm,
      ← Disk.look_of_place hat.file, h]
  rw [hcopied]
  simp only
  rcases Disk.write_cases hat₁.draft hat₁.folder (Text.encode text) with
    ⟨e, he⟩ | ⟨drafted, hdrafted, hsame₂, hseen₂⟩
  · rw [he]
    exact ⟨hat.differsOnlyAt hsame₁, nofun, fun _ _ => hfile₁⟩
  have hsame₂ := hsame₁.trans (hsame₂ (placesBeside folder name) (by simp [placesBeside]))
  have hat₂ := hat.of_sameBut hsame₂
  have hfile₂ : drafted.look path = some (some content) := by
    rw [Disk.look_of_place hat₂.file, hseen₂, if_neg hdraftPlace.symm,
      ← Disk.look_of_place hat₁.file, hfile₁]
  have hdraft₂ : drafted.look (draftOf path) = some (some (Text.encode text)) := by
    rw [Disk.look_of_place hat₂.draft, hseen₂, if_pos rfl]
  obtain ⟨moved, hmoved, hsame₃, hseen₃⟩ :=
    Disk.exists_rename hat₂.draft hat₂.file hdraftPlace hdraft₂ hat₂.folder
      (by simp [← Disk.look_of_place hat₂.file, hfile₂])
  have hsame₃ := hsame₂.trans
    (hsame₃ (placesBeside folder name) (by simp [placesBeside]) (by simp [placesBeside]))
  have hat₃ := hat.of_sameBut hsame₃
  rw [hdrafted]
  simp only
  rw [hmoved]
  refine ⟨hat.differsOnlyAt hsame₃, fun _ => ⟨?_, ?_, ?_⟩, nofun⟩
  · rw [Disk.look_of_place hat₃.file, hseen₃, if_pos rfl]
  · rw [Disk.look_of_place hat₃.copy, hseen₃, if_neg hcopyPlace,
      if_neg hapart, hseen₂, if_neg hapart, hseen₁, if_pos rfl]
  · rw [Disk.look_of_place hat₃.draft, hseen₃, if_neg hdraftPlace, if_pos rfl]

end MobFile

end Bestiary
