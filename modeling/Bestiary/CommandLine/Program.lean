import Bestiary.Behavior.Report
import Bestiary.CommandLine.Arguments
import Bestiary.CommandLine.Config
import Bestiary.Mob.Registry
import Bestiary.Store.MobFile

/-!
# Programs

What a command does: it works on the disk, prints lines and warnings, and ends with an exit code or
a failure. What it did and printed before it failed stays.

* `Program` is the type of commands, `Program.run` carries one out.
* `loadConfig`, `resolveProject` and `readDocument` are what commands have in common.
-/

namespace Bestiary

/-- The exit codes. -/
inductive ExitCode where
  | success
  | violation
  | failure
  deriving DecidableEq

/-- The number of an exit code. -/
def ExitCode.toNat : ExitCode → Nat
  | .success => 0
  | .violation => 1
  | .failure => 2

/-- Why a command ended early. -/
structure Failure where
  message : String
  code : ExitCode

/-- The failure of a command that cannot do its work. -/
def Failure.error (message : String) : Failure := ⟨message, .failure⟩

/-- What a command changes. -/
structure World where
  disk : Disk
  output : List String
  warnings : List String

/-- A command. -/
abbrev Program := ExceptT Failure (StateM World)

/-- How commands print what they found out. -/
inductive Format where
  | text
  | json
  deriving DecidableEq

/-- What all commands are told. -/
structure Options where
  configPath : String
  format : Format

namespace Program

/-- A line printed. -/
def print (line : String) : Program Unit :=
  modify fun w => { w with output := w.output ++ [line] }

/-- A warning printed. -/
def warn (line : String) : Program Unit :=
  modify fun w => { w with warnings := w.warnings ++ [line] }

/-- Data printed as JSON. -/
def printJson (d : Loose) : Program Unit := print (Json.indented d)

/-- Work on the disk, and how it ended. -/
def attempt {α : Type} (work : OnDisk α) : Program (Except FileError α) := do
  let w ← get
  let (result, disk) := work.run.run w.disk
  set { w with disk }
  pure result

/-- Work on the disk. -/
def onDisk {α : Type} (work : OnDisk α) : Program α := do
  match ← attempt work with
  | .ok a => pure a
  | .error e => throw (.error e.message)

/-- What ended a command, and what is left. -/
structure Result where
  code : ExitCode
  errors : List String
  world : World

/-- A command carried out on a disk. -/
def run (p : Program ExitCode) (disk : Disk) : Result :=
  match (ExceptT.run p).run ⟨disk, [], []⟩ with
  | (.ok code, world) => ⟨code, [], world⟩
  | (.error e, world) => ⟨e.code, [s!"mobforge: {e.message}"], world⟩

end Program

open Program

/-! ## Shared steps -/

/-- The settings in a file, or the warning about it. -/
def readConfig (path : String) (content : Except FileError (List UInt8)) : Except String Config :=
  let parsed := match content with
    | .ok bytes => Json.read (Text.decodeMarked bytes)
    | .error _ => none
  match parsed with
  | none => .error s!"Warning: Failed to parse {path}, using defaults"
  | some d =>
    match Config.read d with
    | .ok c => .ok c
    | .error issue =>
      .error s!"Warning: Invalid {path} ({issue.path.dotted}: {issue.message}), using defaults"

/-- The settings of the project; the defaults if there are none or they cannot be read. -/
def loadConfig (options : Options) : Program Config := do
  let path := Config.fileIn options.configPath
  if !(← onDisk (OnDisk.contains path)) then
    return Config.default.inProject options.configPath
  match readConfig path (← attempt (OnDisk.look (Disk.read · path))) with
  | .ok c => pure (c.inProject options.configPath)
  | .error message =>
    warn message
    pure (Config.default.inProject options.configPath)

/-- The documents below a folder. -/
def collectBelow (folder root : String) : Program Collected :=
  onDisk (OnDisk.look (collect · folder root))

/-- The resolution of the layers of a project. Patches of either layer come last. -/
def resolveProject (config : Config) : Program Resolution := do
  let base ← collectBelow config.baseFolder config.root
  let extended ← collectBelow config.extendedFolder config.root
  match resolve config.root ⟨base.mobs, extended.mobs, base.patches ++ extended.patches⟩ with
  | .error e => throw (.error e.message)
  | .ok r =>
    r.skips.forM fun s => warn s.message
    pure r

/-- The document in a file. -/
def readDocument (path : String) : Program (Table Value) := onDisk (MobFile.load path)

end Bestiary
