import Bestiary.Data.Table
import Bestiary.Store.PathText

/-!
# Files and folders

The files below the working directory, as a tree. A path is followed part by part, and every part
but the last must lead to a folder. Above the working directory there is nothing.

* `Disk.read`, `Disk.write`, `Disk.rename` and `Disk.makeFolders` are the operations.
* `Entry.at?`, `Entry.put` and `Entry.remove` are what they do at a place.
-/

namespace Bestiary

/-- A file, or a folder with entries under their names. -/
inductive Entry where
  | file (content : List UInt8)
  | folder (entries : List (String × Entry))

/-- The working directory. -/
abbrev Disk := Entry

/-- Names from the working directory down. -/
abbrev Place := List String

/-- Why an operation on files failed, with the operation. -/
inductive DiskError where
  | missing (operation : String)
  | occupied (operation : String)
  | folder (operation : String)
  | noFolder (operation : String)
  | impossible (operation : String)

/-- The wording of a failure. -/
def DiskError.message : DiskError → String
  | .missing operation => s!"ENOENT: no such file or directory, {operation}"
  | .occupied operation => s!"EEXIST: file already exists, {operation}"
  | .folder operation => s!"EISDIR: illegal operation on a directory, {operation}"
  | .noFolder operation => s!"ENOTDIR: not a directory, {operation}"
  | .impossible operation => s!"EINVAL: invalid argument, {operation}"

namespace Entry

/-! ## Places -/

/-- What stands at a place below an entry. -/
def at? : Entry → Place → Option Entry
  | e, [] => some e
  | .file _, _ :: _ => none
  | .folder entries, name :: place => (Table.get? entries name).bind (at? · place)

/-- Whether an entry is a folder. -/
def isFolder : Entry → Bool
  | .folder _ => true
  | .file _ => false

/-- With `new` at a place, if the folder that it is to stand in is there. -/
def put (new : Entry) : Place → Entry → Entry
  | [], _ => new
  | _ :: _, .file content => .file content
  | name :: place, .folder entries =>
    match place, Table.get? entries name with
    | [], _ => .folder (Table.set entries name new)
    | _ :: _, some e => .folder (Table.set entries name (put new place e))
    | _ :: _, none => .folder entries

/-- Without what stands at a place. -/
def remove : Place → Entry → Entry
  | [], e => e
  | _ :: _, .file content => .file content
  | name :: place, .folder entries =>
    match place, Table.get? entries name with
    | [], _ => .folder (Table.erase entries name)
    | _ :: _, some e => .folder (Table.set entries name (remove place e))
    | _ :: _, none => .folder entries

end Entry

namespace Disk

/-- A disk without files. -/
def empty : Disk := .folder []

/-- Whether there is a folder at a place. -/
def hasFolder (d : Disk) (place : Place) : Bool := (Entry.at? d place).any Entry.isFolder

/-- The place that parts lead to from a place. -/
def follow (d : Disk) : (here : Place) → List String → Option Place
  | here, [] => some here
  | here, part :: parts =>
    if !hasFolder d here then none
    else if part = "" ∨ part = "." then follow d here parts
    else if part = ".." then
      if here.isEmpty then none else follow d here.dropLast parts
    else follow d (here ++ [part]) parts

/-- The place that a path leads to, whether or not anything stands there. -/
def place? (d : Disk) (path : String) : Option Place :=
  if path = "" then none else follow d [] (pathParts path)

/-- What a path leads to. -/
def find? (d : Disk) (path : String) : Option Entry := (place? d path).bind (Entry.at? d)

/-- Whether a path leads to anything. -/
def contains (d : Disk) (path : String) : Bool := (find? d path).isSome

/-! ## Operations -/

/-- The content of a file. -/
def read (d : Disk) (path : String) : Except DiskError (List UInt8) :=
  match find? d path with
  | some (.file content) => .ok content
  | some (.folder _) => .error (.folder "read")
  | none => .error (.missing s!"open '{path}'")

/-- The disk with a file written anew. -/
def write (d : Disk) (path : String) (content : List UInt8) : Except DiskError Disk :=
  match place? d path with
  | none => .error (.missing s!"open '{path}'")
  | some place =>
    if hasFolder d place then .error (.folder s!"open '{path}'")
    else .ok (Entry.put (.file content) place d)

/-- The disk with the folders that parts lead through from a place. -/
def makeAlong (operation : String) (d : Disk) : (here : Place) → List String → Except DiskError Disk
  | _, [] => .ok d
  | here, part :: parts =>
    if part = "" ∨ part = "." then makeAlong operation d here parts
    else if part = ".." then
      if here.isEmpty then .ok d else makeAlong operation d here.dropLast parts
    else
      match Entry.at? d (here ++ [part]) with
      | some (.file _) => .error (.occupied operation)
      | some (.folder _) => makeAlong operation d (here ++ [part]) parts
      | none =>
        makeAlong operation (Entry.put (.folder []) (here ++ [part]) d) (here ++ [part]) parts

/-- The disk with a folder at a path, and with those that it stands in. -/
def makeFolders (d : Disk) (path : String) : Except DiskError Disk :=
  makeAlong s!"mkdir '{path}'" d [] (pathParts path)

/-- The disk with a file or folder moved. A file that is in the way is replaced. -/
def rename (d : Disk) (source target : String) : Except DiskError Disk :=
  let operation := s!"rename '{source}' -> '{target}'"
  match place? d source, find? d source, place? d target with
  | some src, some e, some dst =>
    if src = dst then .ok d
    else if src.isPrefixOf dst then .error (.impossible operation)
    else
      match e, Entry.at? d dst with
      | .file _, some (.folder _) => .error (.folder operation)
      | .folder _, some (.file _) => .error (.noFolder operation)
      | .folder _, some (.folder (_ :: _)) => .error (.occupied operation)
      | _, _ => .ok (Entry.put e dst (Entry.remove src d))
  | _, _, _ => .error (.missing operation)

end Disk

/-! ## Listing -/

/-- A file below a folder, by its path from there. -/
structure FileBelow where
  path : String
  content : List UInt8

/-- The name of the folders that hold deleted files. -/
def deletedFolder : String := ".deleted"

/-- A path with one more part. -/
def pathBelow (path name : String) : String := if path = "" then name else s!"{path}/{name}"

/-- Groups in the order of their names, one after the other. -/
def inNameOrder {α : Type} (groups : List (String × List α)) : List α :=
  (groups.mergeSort fun a b => Text.notAfter a.1 b.1).flatMap Prod.snd

mutual

/-- The files of an entry, those of deleted folders apart. Folders are gone through in the order of
names. -/
def Entry.files (path : String) : Entry → List FileBelow
  | .file content => [⟨path, content⟩]
  | .folder entries => inNameOrder (Entry.filesEach path entries)

/-- The files of each entry of a folder. -/
def Entry.filesEach (path : String) : List (String × Entry) → List (String × List FileBelow)
  | [] => []
  | (name, e) :: entries =>
    (name, if name = deletedFolder ∧ e.isFolder then [] else Entry.files (pathBelow path name) e) ::
      Entry.filesEach path entries

end

end Bestiary
