import Bestiary.Editor.History
import Bestiary.Json.Reader
import Bestiary.Json.Writer
import Bestiary.Mob.Name
import Bestiary.Schema.Record
import Bestiary.Store.PathText

/-!
# Settings

The settings of a project: where its mobs are, what their asset root is, how far edits can be
undone. They are kept as JSON in a folder of the project. Settings that are absent have defaults,
keys that are none are ignored.

* `Config.read` reads settings, `Config.default` are the defaults.
* `Config.inProject` gives the folders of mobs from the working directory.
-/

namespace Bestiary

/-- The settings of a project. -/
structure Config where
  /-- The folder of the base layer. -/
  baseFolder : String
  /-- The folder of the extended layer. -/
  extendedFolder : String
  /-- The asset root. -/
  root : String
  /-- How many edits can be undone. -/
  historyLimit : Nat

namespace Config

open Record

/-- The settings of a project that sets nothing. -/
def default : Config := ⟨"assets/mobs", "assets/extended/mobs", defaultRoot, History.defaultLimit⟩

/-- A text that is not empty. -/
def readFolder (d : Loose) : Except Issue String := do
  let folder ← asText d
  if folder = "" then .error (.here (.tooShort 1)) else pure folder

/-- A positive whole number. -/
def readLimit (d : Loose) : Except Issue Nat :=
  match d with
  | .number n =>
    match n.toInt? with
    | none => .error (.here (.wrongKind "integer" "float"))
    | some i => if i ≤ 0 then .error (.here (.notAbove 0)) else .ok i.toNat
  | .alien (.infinite _) => .error (.here (.wrongKind "integer" "float"))
  | _ => .error (wrongKind "number" d)

/-- Settings from JSON. -/
def read (d : Loose) : Except Issue Config := do
  let entries ← asTable d
  let baseFolder ← optional entries "baseDir" readFolder
  let extendedFolder ← optional entries "extendedDir" readFolder
  let root ← optional entries "root" asText
  let historyLimit ← optional entries "historyLimit" readLimit
  pure ⟨baseFolder.getD default.baseFolder, extendedFolder.getD default.extendedFolder,
    root.getD default.root, historyLimit.getD default.historyLimit⟩

/-- Settings as JSON. -/
def toData (c : Config) : Loose :=
  .table [("baseDir", .text c.baseFolder), ("extendedDir", .text c.extendedFolder),
    ("root", .text c.root), ("historyLimit", .number (.ofSmall c.historyLimit))]

/-- The text of the default settings. -/
def defaultText : String := Json.indented default.toData

/-- The path of the settings in their folder. -/
def fileIn (configPath : String) : String := joinPath configPath "config.json"

/-- The folder of the project that a folder of settings belongs to. -/
def projectRoot (configPath : String) : String := joinPath configPath ".."

/-- The settings with the folders of mobs as paths from the working directory. -/
def inProject (c : Config) (configPath : String) : Config :=
  { c with
    baseFolder := joinPath (projectRoot configPath) c.baseFolder
    extendedFolder := joinPath (projectRoot configPath) c.extendedFolder }

end Config

end Bestiary
