import Bestiary.Proofs.Data.Table
import Bestiary.Proofs.Text.Split
import Bestiary.Store.Disk

/-!
# The shape of disks

A disk is a tree: in each folder every name is there once, and is a name. Paths are cut at slashes,
so that no operation makes a name of anything else.

* `Entry.IsTree` says that an entry has this shape; `Entry.IsTree.put` and `Entry.IsTree.remove`
  say that a change at a place leaves it.
* `DiskStep` is an operation as data; `Disk.isTree_perform` says that each keeps the shape, and
  `Disk.isTree_performAll` that every disk that operations lead to has it.
-/

namespace Bestiary

/-- What a file or a folder can be called. -/
def IsName (name : String) : Prop := name ≠ "" ∧ '/' ∉ name.toList

instance : DecidablePred IsName := fun _ => inferInstanceAs (Decidable (_ ∧ _))

namespace Entry

/-- **Induction on entries**: what holds of files, and of a folder if it holds of its entries, holds
of all entries. -/
@[elab_as_elim]
theorem induction {motive : Entry → Prop} (file : ∀ content, motive (.file content))
    (folder : ∀ entries : List (String × Entry), (∀ e ∈ entries, motive e.2) →
      motive (.folder entries)) (e : Entry) : motive e := by
  refine @Entry.rec motive (fun entries => ∀ e ∈ entries, motive e.2) (fun e => motive e.2)
    file folder ?_ ?_ ?_ e
  · exact fun e he => absurd he List.not_mem_nil
  · exact fun e entries he hentries => List.forall_mem_cons.mpr ⟨he, hentries⟩
  · exact fun _ _ h => h

/-- In each folder of the entry every name is there once, and is a name. -/
inductive IsTree : Entry → Prop where
  | file (content : List UInt8) : IsTree (.file content)
  | folder {entries : List (String × Entry)} (hnodup : (Table.keys entries).Nodup)
    (hnames : ∀ e ∈ entries, IsName e.1) (hbelow : ∀ e ∈ entries, IsTree e.2) :
    IsTree (.folder entries)

@[simp] theorem isTree_file (content : List UInt8) : (file content).IsTree := .file content

@[simp] theorem isTree_folder_iff {entries : List (String × Entry)} :
    (folder entries).IsTree ↔ (Table.keys entries).Nodup ∧ (∀ e ∈ entries, IsName e.1) ∧
      ∀ e ∈ entries, e.2.IsTree := by
  constructor
  · rintro ⟨⟩
    exact ⟨‹_›, ‹_›, ‹_›⟩
  · exact fun ⟨hnodup, hnames, hbelow⟩ => .folder hnodup hnames hbelow

namespace IsTree

variable {e u new : Entry} {place : Place} {name : String} {entries : List (String × Entry)}

/-- What stands at a place of a tree is a tree, and there are names on the way. -/
theorem at? (h : e.IsTree) (hat : e.at? place = some u) :
    u.IsTree ∧ ∀ name ∈ place, IsName name := by
  induction place generalizing e with
  | nil =>
    obtain rfl := Option.some.inj hat
    exact ⟨h, fun _ hname => absurd hname List.not_mem_nil⟩
  | cons name place ih =>
    cases h with
    | file content => cases hat
    | folder hnodup hnames hbelow =>
      obtain ⟨e, he, hat⟩ := Option.bind_eq_some_iff.mp hat
      have hmem := Table.mem_of_get? he
      obtain ⟨htree, hplace⟩ := ih (hbelow _ hmem) hat
      exact ⟨htree, List.forall_mem_cons.mpr ⟨hnames _ hmem, hplace⟩⟩

theorem get? (h : (Entry.folder entries).IsTree) (hget : Table.get? entries name = some u) :
    u.IsTree := (isTree_folder_iff.mp h).2.2 _ (Table.mem_of_get? hget)

theorem set (h : (Entry.folder entries).IsTree) (hname : IsName name) (hnew : new.IsTree) :
    (Entry.folder (Table.set entries name new)).IsTree := by
  obtain ⟨hnodup, hnames, hbelow⟩ := isTree_folder_iff.mp h
  refine .folder (Table.nodup_keys_set hnodup _ _) (fun e he => ?_) fun e he => ?_
  · rcases Table.mem_set he with rfl | he
    · exact hname
    · exact hnames e he
  · rcases Table.mem_set he with rfl | he
    · exact hnew
    · exact hbelow e he

theorem erase (h : (Entry.folder entries).IsTree) (name : String) :
    (Entry.folder (Table.erase entries name)).IsTree := by
  obtain ⟨hnodup, hnames, hbelow⟩ := isTree_folder_iff.mp h
  exact .folder (Table.nodup_keys_erase hnodup _)
    (fun e he => hnames e (List.mem_of_mem_filter he))
    fun e he => hbelow e (List.mem_of_mem_filter he)

/-- **A tree put at a place of a tree leaves a tree.** -/
theorem put (h : e.IsTree) (hplace : ∀ name ∈ place, IsName name) (hnew : new.IsTree) :
    (Entry.put new place e).IsTree := by
  induction place generalizing e with
  | nil => exact hnew
  | cons name place ih =>
    rw [List.forall_mem_cons] at hplace
    obtain ⟨hname, hplace⟩ := hplace
    cases e with
    | file content => exact h
    | folder entries =>
      unfold Entry.put
      split
      · exact h.set hname hnew
      · rename_i u hget
        exact h.set hname (ih (h.get? hget) hplace)
      · exact h

/-- **A tree without what stands at a place is a tree.** -/
theorem remove (h : e.IsTree) (hplace : ∀ name ∈ place, IsName name) :
    (Entry.remove place e).IsTree := by
  induction place generalizing e with
  | nil => exact h
  | cons name place ih =>
    rw [List.forall_mem_cons] at hplace
    obtain ⟨hname, hplace⟩ := hplace
    cases e with
    | file content => exact h
    | folder entries =>
      unfold Entry.remove
      split
      · exact h.erase name
      · rename_i u hget
        exact h.set hname (ih (h.get? hget) hplace)
      · exact h

end IsTree

end Entry

/-! ## Operations -/

/-- An operation on a disk. -/
inductive DiskStep where
  | write (path : String) (content : List UInt8)
  | makeFolders (path : String)
  | rename (source target : String)

namespace Disk

/-- The disk after an operation. -/
def perform (d : Disk) : DiskStep → Except DiskError Disk
  | .write path content => write d path content
  | .makeFolders path => makeFolders d path
  | .rename source target => rename d source target

/-- The disk after a list of operations. Those that fail leave it. -/
def performAll (d : Disk) (steps : List DiskStep) : Disk :=
  steps.foldl (fun d x => (d.perform x).toOption.getD d) d

variable {d d' : Disk} {path part : String} {here place : Place} {parts : List String}

/-- What is added to a place is a name. -/
theorem isName_concat (hhere : ∀ name ∈ here, IsName name) (hpart : '/' ∉ part.toList)
    (hne : part ≠ "") : ∀ name ∈ here ++ [part], IsName name := by
  intro name hname
  rcases List.mem_append.mp hname with hname | hname
  · exact hhere name hname
  · obtain rfl := List.mem_singleton.mp hname
    exact ⟨hne, hpart⟩

theorem isName_dropLast (hhere : ∀ name ∈ here, IsName name) :
    ∀ name ∈ here.dropLast, IsName name :=
  fun name hname => hhere name ((List.dropLast_sublist here).mem hname)

/-- The parts of a path lead over names. -/
theorem isName_of_follow (hparts : ∀ part ∈ parts, '/' ∉ part.toList)
    (hhere : ∀ name ∈ here, IsName name) (h : follow d here parts = some place) :
    ∀ name ∈ place, IsName name := by
  induction parts generalizing here with
  | nil =>
    obtain rfl := Option.some.inj h
    exact hhere
  | cons part parts ih =>
    obtain ⟨hpart, hparts⟩ := List.forall_mem_cons.mp hparts
    unfold follow at h
    split_ifs at h with hfolder hstay hup htop
    · exact ih hparts hhere h
    · exact ih hparts (isName_dropLast hhere) h
    · exact ih hparts (isName_concat hhere hpart fun hempty => hstay (.inl hempty)) h

/-- A path leads to a place with names on the way. -/
theorem isName_of_place? (h : place? d path = some place) : ∀ name ∈ place, IsName name := by
  unfold place? at h
  split at h
  · cases h
  · exact isName_of_follow (fun part hpart => Text.not_mem_of_mem_split hpart)
      (fun _ hname => absurd hname List.not_mem_nil) h

theorem isTree_write (hd : Entry.IsTree d) {content : List UInt8}
    (h : write d path content = .ok d') : Entry.IsTree d' := by
  unfold write at h
  split at h
  · cases h
  · rename_i place hplace
    split at h
    · cases h
    · cases h
      exact hd.put (isName_of_place? hplace) (.file content)

/-- Folders that are made along a path are given names. -/
theorem isTree_makeAlong {operation : String} (hparts : ∀ part ∈ parts, '/' ∉ part.toList)
    (hhere : ∀ name ∈ here, IsName name) (hd : Entry.IsTree d)
    (h : makeAlong operation d here parts = .ok d') : Entry.IsTree d' := by
  induction parts generalizing d here with
  | nil =>
    obtain rfl := Except.ok.inj h
    exact hd
  | cons part parts ih =>
    obtain ⟨hpart, hparts⟩ := List.forall_mem_cons.mp hparts
    unfold makeAlong at h
    split_ifs at h with hstay hup htop
    · exact ih hparts hhere hd h
    · obtain rfl := Except.ok.inj h
      exact hd
    · exact ih hparts (isName_dropLast hhere) hd h
    · have hnames := isName_concat hhere hpart fun hempty => hstay (.inl hempty)
      split at h
      · cases h
      · exact ih hparts hnames hd h
      · have hempty : Entry.IsTree (.folder []) := by simp [Table.keys]
        exact ih hparts hnames (hd.put hnames hempty) h

theorem isTree_makeFolders (hd : Entry.IsTree d) (h : makeFolders d path = .ok d') :
    Entry.IsTree d' :=
  isTree_makeAlong (fun _ hpart => Text.not_mem_of_mem_split hpart)
    (fun _ hname => absurd hname List.not_mem_nil) hd h

theorem isTree_rename (hd : Entry.IsTree d) {source target : String}
    (h : rename d source target = .ok d') : Entry.IsTree d' := by
  unfold rename at h
  simp only at h
  split at h
  · rename_i src e dst hsrc he hdst
    obtain ⟨here, -, hat⟩ := Option.bind_eq_some_iff.mp he
    have hmoved : Entry.IsTree (Entry.put e dst (Entry.remove src d)) :=
      (hd.remove (isName_of_place? hsrc)).put (isName_of_place? hdst) (hd.at? hat).1
    split_ifs at h with hsame hinside
    · obtain rfl := Except.ok.inj h
      exact hd
    · split at h
      · cases h
      · cases h
      · cases h
      · obtain rfl := Except.ok.inj h
        exact hmoved
  · cases h

/-- **Every operation keeps a disk a tree.** -/
theorem isTree_perform (hd : Entry.IsTree d) {x : DiskStep} (h : d.perform x = .ok d') :
    Entry.IsTree d' := by
  cases x with
  | write path content => exact isTree_write hd h
  | makeFolders path => exact isTree_makeFolders hd h
  | rename source target => exact isTree_rename hd h

/-- **Every disk that operations lead to is a tree.** -/
theorem isTree_performAll (hd : Entry.IsTree d) (steps : List DiskStep) :
    Entry.IsTree (d.performAll steps) := by
  refine List.foldlRecOn steps _ hd fun d hd x _ => ?_
  cases hx : d.perform x with
  | error e => exact hd
  | ok d' => exact isTree_perform hd hx

end Disk

end Bestiary
