import Bestiary.Editor.Session
import Bestiary.Mob.Resolve
import Bestiary.Store.Disk

/-!
# Mob files

Documents on disk. A file that is written over is copied aside first, a file that is deleted is
moved into a folder beside it.

* `MobFile.load`, `MobFile.save`, `MobFile.create` and `MobFile.delete` work on one file.
* `collect` finds all files below a folder.
-/

namespace Bestiary

/-- Why an operation on a document failed. -/
inductive FileError where
  | notFound (path : String)
  | alreadyThere (path : String)
  | unreadable (error : ParseError)
  | unwritable (error : Toml.WriteError)
  | disk (error : DiskError)

/-- The wording of a failure. -/
def FileError.message : FileError → String
  | .notFound path => s!"File not found: {path}"
  | .alreadyThere path => s!"File already exists: {path}"
  | .unreadable error => error.message
  | .unwritable error => error.message
  | .disk error => error.message

/-- An operation on the disk. What it did before it failed stays done. -/
abbrev OnDisk := ExceptT FileError (StateM Disk)

namespace OnDisk

/-- A step that leaves the disk as it is. -/
def look {α : Type} (f : Disk → Except DiskError α) : OnDisk α := do
  match f (← get) with
  | .ok a => pure a
  | .error e => throw (.disk e)

/-- A step that changes the disk. -/
def step (f : Disk → Except DiskError Disk) : OnDisk Unit := do
  set (← look f)

/-- Whether a path leads to anything. -/
def contains (path : String) : OnDisk Bool := do
  pure (Disk.contains (← get) path)

end OnDisk

namespace MobFile

open OnDisk

/-- The document in a file. -/
def load (path : String) : OnDisk (Table Value) := do
  if !(← contains path) then throw (.notFound path)
  match Toml.parseBytes (← look (Disk.read · path)) (some path) with
  | .ok t => pure t
  | .error e => throw (.unreadable e)

/-- The path of the copy of a file that is written over. -/
def backupOf (path : String) : String := path ++ ".bak"

/-- The path that a file is written under before it takes its place. -/
def draftOf (path : String) : String := path ++ ".tmp"

/-- A text written to a file. The file is complete at every moment. -/
def writeText (path text : String) : OnDisk Unit := do
  if ← contains path then
    let content ← look (Disk.read · path)
    step (Disk.write · (backupOf path) content)
  step (Disk.write · (draftOf path) (Text.encode text))
  step (Disk.rename · (draftOf path) path)

/-- A document written to a file. -/
def save (path : String) (document : Table Value) : OnDisk Unit :=
  match Toml.write document with
  | .ok text => writeText path text
  | .error e => throw (.unwritable e)

/-- What a new document of a kind holds. -/
def newDocument (kind : DocumentKind) (name : String) : Table Value :=
  match kind with
  | .mob => newMob name
  | .patch => [("name", .text name)]

/-- A new document in a file that is not there yet. -/
def create (path name : String) (kind : DocumentKind) : OnDisk (Table Value) := do
  if ← contains path then throw (.alreadyThere path)
  step (Disk.makeFolders · (folderOf path))
  let document := newDocument kind name
  save path document
  pure document

/-- A file moved into the folder for deleted files beside it, and its new path. If its name is
taken there, the time of the deletion is put in front. -/
def delete (stamp path : String) : OnDisk String := do
  if !(← contains path) then throw (.notFound path)
  let folder := joinPath (folderOf path) deletedFolder
  step (Disk.makeFolders · folder)
  let own := joinPath folder (nameIn path)
  let target := if ← contains own then joinPath folder s!"{stamp}.{nameIn path}" else own
  step (Disk.rename · path target)
  pure target

end MobFile

/-! ## Collecting -/

/-- The files of a folder that hold documents. -/
structure Collected where
  mobs : List SourceFile
  patches : List SourceFile

/-- The files below an entry as sources, their paths set below an asset root. -/
def Collected.ofEntry (root : String) (e : Entry) : Collected :=
  let endingIn (extension : String) : List SourceFile :=
    ((e.files "").filter fun f => Text.endsIn extension f.path).map fun f =>
      ⟨root ++ f.path, .bytes f.content⟩
  ⟨endingIn mobExtension, endingIn patchExtension⟩

/-- The documents below a folder; none if there is no such folder. -/
def collect (d : Disk) (folder root : String) : Except DiskError Collected :=
  match Disk.find? d folder with
  | none => .ok ⟨[], []⟩
  | some (.file _) => .error (.noFolder s!"scandir '{folder}'")
  | some e => .ok (.ofEntry root e)

end Bestiary
