import Bestiary.CommandLine.Run

/-!
# The program

Reads the working directory, runs the command line on it, writes back what changed and prints. The
commands themselves are pure: they work on the directory as it was read.
-/

namespace Bestiary.Main

/-- An entry of a folder, with all that is below it. -/
partial def readEntry (e : IO.FS.DirEntry) : IO (String × Entry) := do
  if ← e.path.isDir then
    let entries ← (← e.path.readDir).toList.mapM readEntry
    pure (e.fileName, .folder (Table.ofEntries entries))
  else
    pure (e.fileName, .file (← IO.FS.readBinFile e.path).data.toList)

/-- The working directory. -/
def readDisk : IO Disk := do
  let entries ← (← (← IO.currentDir).readDir).toList.mapM readEntry
  pure (.folder (Table.ofEntries entries))

/-- What differs between two states of the disk below a path, written to it. -/
partial def writeChanges (path : String) (before : Option Entry) (after : Entry) : IO Unit := do
  match before, after with
  | some (.file old), .file new =>
    if old ≠ new then IO.FS.writeBinFile path ⟨new.toArray⟩
  | _, .file new => IO.FS.writeBinFile path ⟨new.toArray⟩
  | _, .folder entries =>
    if before.isNone then IO.FS.createDirAll path
    for (name, e) in entries do
      writeChanges s!"{path}/{name}" (before.bind (Entry.at? · [name])) e
    match before with
    | some (.folder old) =>
      for (name, e) in old do
        if !Table.has entries name && !e.isFolder then IO.FS.removeFile s!"{path}/{name}"
    | _ => pure ()

end Bestiary.Main

open Bestiary in
/-- Carries out what the arguments ask for in the working directory. -/
def main (args : List String) : IO UInt32 := do
  let disk ← Main.readDisk
  let r := CommandLine.run args disk
  Main.writeChanges "." (some disk) r.world.disk
  r.world.warnings.forM fun line => IO.eprintln line
  r.world.output.forM fun line => IO.println line
  r.errors.forM fun line => IO.eprintln line
  pure r.code.toNat.toUInt32
