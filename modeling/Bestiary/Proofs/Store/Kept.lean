import Bestiary.Proofs.Store.MobFile
import Bestiary.Proofs.Store.PathText

/-!
# What is kept on the disk

A file stays with its content as long as nothing is written to its place, nothing is moved there,
and neither it nor a folder that it is in is moved away. Which paths lead to its place is a matter
of their text alone.

* `Disk.seen_of_write`, `Disk.seen_of_rename` and `Disk.seen_of_makeFolders` say so of each
  operation.
* `OnDisk.Keeps` says of work that it leaves a file, whatever comes of it.
* `MobFile.keeps_save` and `MobFile.keeps_create` are the accounts of documents that are saved and
  created elsewhere.
-/

namespace Bestiary

namespace Disk

variable {d d' : Disk} {path : String} {place : Place} {content new : List UInt8}

/-! ## Operations -/

/-- A file is put where a path leads to. -/
theorem write_eq_ok (h : write d path new = .ok d') :
    Entry.seen d (simplified path) ≠ some none ∧
      d' = Entry.put (.file new) (simplified path) d := by
  rw [write] at h
  split at h
  · cases h
  rename_i written hwritten
  rw [simplified_of_place? hwritten]
  split at h
  · cases h
  rename_i hfree
  rw [hasFolder_iff] at hfree
  exact ⟨hfree, (Except.ok.inj h).symm⟩

/-- What is written at another place leaves a file. -/
theorem seen_of_write (hwrite : write d path new = .ok d') (hpath : simplified path ≠ place)
    (h : Entry.seen d place = some (some content)) :
    Entry.seen d' place = some (some content) := by
  obtain ⟨hfree, rfl⟩ := write_eq_ok hwrite
  rw [Entry.seen_put_of_not_prefix (Entry.not_prefix_of_seen h hfree hpath), h]

/-- A move leaves a file, unless it or a folder that it is in is moved, or a file takes its
place. -/
theorem seen_of_rename {source target : String} (hrename : rename d source target = .ok d')
    (hsource : ∀ src, place? d source = some src → ¬src <+: place)
    (htarget : (∃ old, look d source = some (some old)) → simplified target ≠ place)
    (h : Entry.seen d place = some (some content)) :
    Entry.seen d' place = some (some content) := by
  rw [rename] at hrename
  split at hrename
  · rename_i src e dst hsrc hfind hdst
    split_ifs at hrename
    · exact Except.ok.inj hrename ▸ h
    by_cases hprefix : dst <+: place
    · exfalso
      obtain ⟨below, rfl⟩ := hprefix
      cases below with
      | nil =>
        rw [List.append_nil] at h htarget
        have hold := find?_of_look (look_of_place hdst ▸ h)
        rw [find?, hdst, Option.bind_some] at hold
        rw [hold] at hrename
        cases e with
        | file old =>
          have hlook : look d source = some (some old) := by
            rw [look_eq_map_find?, hfind]
            rfl
          exact htarget ⟨old, hlook⟩ (simplified_of_place? hdst)
        | folder entries => cases hrename
      | cons part below =>
        -- A folder with something in it is in the way.
        obtain ⟨entries, hentries⟩ := Entry.exists_of_seen_folder (Entry.seen_of_below h)
        rw [Entry.seen_append, hentries] at h
        rw [hentries] at hrename
        cases entries with
        | nil => cases h
        | cons entry entries => cases e <;> cases hrename
    · have hmoved : d' = Entry.put e dst (Entry.remove src d) := by
        split at hrename <;> cases hrename
        rfl
      rw [hmoved, Entry.seen_put_of_not_prefix hprefix,
        Entry.seen_remove_of_not_prefix (hsource src hsrc), h]
  · cases hrename

/-- Folders that are made leave what is there. -/
theorem seen_of_makeAlong {operation : String} {parts : List String} {here : Place}
    {x : Option (List UInt8)} (hmake : makeAlong operation d here parts = .ok d')
    (h : Entry.seen d place = some x) : Entry.seen d' place = some x := by
  induction parts generalizing d here with
  | nil => exact Except.ok.inj hmake ▸ h
  | cons part parts ih =>
    rw [makeAlong] at hmake
    split at hmake
    · exact ih hmake h
    split at hmake
    · split at hmake
      · exact Except.ok.inj hmake ▸ h
      · exact ih hmake h
    split at hmake
    · cases hmake
    · exact ih hmake h
    · rename_i hnone
      refine ih hmake ?_
      rw [Entry.seen_put_of_not_prefix, h]
      rintro ⟨below, rfl⟩
      rw [Entry.seen_append, hnone] at h
      cases h

theorem seen_of_makeFolders {x : Option (List UInt8)} (hmake : makeFolders d path = .ok d')
    (h : Entry.seen d place = some x) : Entry.seen d' place = some x :=
  seen_of_makeAlong hmake h

end Disk

/-! ## Work on a disk -/

namespace OnDisk

variable {α β : Type} {place : Place} {work : OnDisk α} {next : α → OnDisk β}

/-- Work that leaves a file at a place, whatever comes of it. -/
def Keeps (place : Place) (work : OnDisk α) : Prop :=
  ∀ d content, Entry.seen d place = some (some content) →
    Entry.seen (work.on d).2 place = some (some content)

theorem Looks.keeps (h : work.Looks) (place : Place) : work.Keeps place := fun d _ hseen => by
  rw [h d]
  exact hseen

theorem keeps_pure (a : α) : (pure a : OnDisk α).Keeps place := fun _ _ hseen => hseen

theorem keeps_throw (e : FileError) : (throw e : OnDisk α).Keeps place := fun _ _ hseen => hseen

theorem keeps_bind (h : work.Keeps place) (hnext : ∀ a, (next a).Keeps place) :
    (work >>= next).Keeps place := by
  intro d content hseen
  have hfirst := h d content hseen
  rw [on_bind]
  generalize work.on d = result at hfirst
  match result, hfirst with
  | (.ok a, d'), hfirst => exact hnext a d' content hfirst
  | (.error e, d'), hfirst => exact hfirst

theorem keeps_step {f : Disk → Except DiskError Disk}
    (h : ∀ d d' content, f d = .ok d' → Entry.seen d place = some (some content) →
      Entry.seen d' place = some (some content)) : (step f).Keeps place := by
  intro d content hseen
  rw [on_step]
  cases hf : f d with
  | error e => exact hseen
  | ok d' => exact h d d' content hf hseen

end OnDisk

namespace MobFile

open OnDisk

variable {path : String} {place : Place}

/-- The draft that is written beside a file and takes its place leaves all other files. -/
theorem keeps_replace (text : String) (hfile : simplified path ≠ place)
    (hdraft : simplified (draftOf path) ≠ place) :
    (do
      step (Disk.write · (draftOf path) (Text.encode text))
      step (Disk.rename · (draftOf path) path)).Keeps place := by
  intro d content hseen
  rw [on_bind, on_step]
  cases hwrite : Disk.write d (draftOf path) (Text.encode text) with
  | error e => exact hseen
  | ok drafted =>
    have hseen' := Disk.seen_of_write hwrite hdraft hseen
    simp only [on_step]
    cases hrename : Disk.rename drafted (draftOf path) path with
    | error e => exact hseen'
    | ok moved =>
      refine Disk.seen_of_rename hrename (fun src hsrc => ?_) (fun _ => hfile) hseen'
      obtain ⟨-, rfl⟩ := Disk.write_eq_ok hwrite
      rw [← Disk.simplified_of_place? hsrc]
      exact Entry.not_prefix_of_seen hseen' (Entry.seen_put_file_ne _ _ _) hdraft

/-- The paths that a document is saved with. -/
def savePaths (path : String) : List String := [path, backupOf path, draftOf path]

/-- **A text that is written** leaves all files but its own, the copy and the draft. -/
theorem keeps_writeText (text : String) (h : ∀ own ∈ savePaths path, simplified own ≠ place) :
    (writeText path text).Keeps place := by
  simp only [savePaths, List.mem_cons, List.not_mem_nil, or_false, forall_eq_or_imp,
    forall_eq] at h
  obtain ⟨hfile, hcopy, hdraft⟩ := h
  have hreplace := keeps_replace text hfile hdraft
  unfold writeText
  refine keeps_bind ((looks_contains path).keeps place) fun there => ?_
  split
  · refine keeps_bind ((looks_look _).keeps place) fun content => keeps_bind ?_ fun _ => hreplace
    exact keeps_step fun d d' content hwrite hseen => Disk.seen_of_write hwrite hcopy hseen
  · exact hreplace

theorem keeps_save (document : Table Value) (h : ∀ own ∈ savePaths path, simplified own ≠ place) :
    (save path document).Keeps place := by
  unfold save
  split
  · exact keeps_writeText _ h
  · exact keeps_throw _

/-- So does a document that is created. -/
theorem keeps_create (name : String) (kind : DocumentKind)
    (h : ∀ own ∈ savePaths path, simplified own ≠ place) : (create path name kind).Keeps place := by
  unfold create
  refine keeps_bind ((looks_contains path).keeps place) fun there => ?_
  split
  · exact keeps_throw _
  · refine keeps_bind (keeps_step fun d d' content => Disk.seen_of_makeFolders) fun _ => ?_
    exact keeps_bind (keeps_save _ h) fun _ => keeps_pure _

end MobFile

end Bestiary
