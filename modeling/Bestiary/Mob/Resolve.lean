import Bestiary.Data.Merge
import Bestiary.Mob.Definition
import Bestiary.Toml.Document

/-!
# Layers

The definitions of a game come in three layers. Base files must all be readable. Extended files add
mobs or replace base mobs whole. Patches are laid over the mob that they name, field by field.
Within a layer, files are taken in the order of their paths. What cannot be used of the upper two
layers is skipped with a warning, and so is a mob that does not conform to the schema in the end.

* `resolve` gives the `Resolution` of the sources, or the error of a base file.
* `Layered` is the state between files, `extend` and `patch` are the steps.
-/

namespace Bestiary

/-- A file of a layer. -/
structure SourceFile where
  path : String
  content : Toml.Content

/-- The table in a file. -/
def SourceFile.parse (f : SourceFile) : Except ParseError (Table Value) :=
  f.content.parse (some f.path)

/-- The files of the three layers. -/
structure Sources where
  base : List SourceFile
  extended : List SourceFile
  patches : List SourceFile

/-- The layers whose files may be skipped. -/
inductive UpperLayer where
  | extended
  | patch

/-- The name of a layer. -/
def UpperLayer.name : UpperLayer → String
  | .extended => "extended"
  | .patch => "patch"

/-- Something that was left out, and why. -/
inductive Skip where
  | file (layer : UpperLayer) (path : String) (error : ParseError)
  | patch (path name : String)
  | mob (error : DefinitionError)

/-- The warning about something that was left out. -/
def Skip.message : Skip → String
  | .file layer path error => s!"Skipping {layer.name} file {path}: {error.message}"
  | .patch path name => s!"Skipping patch {path}: no mob named \"{name}\" to patch"
  | .mob error => s!"Skipping mob {error.entity}: {error.message}"

/-- How many files of each layer were used. -/
structure LayerCounts where
  base : Nat
  extended : Nat
  patched : Nat

/-- What the files read so far amount to. -/
structure Layered where
  tables : Table (Table Value)
  counts : LayerCounts
  skips : List Skip

/-- The files in the order of their paths. -/
def byPath (files : List SourceFile) : List SourceFile :=
  files.mergeSort fun a b => Text.notAfter a.path b.path

namespace Layered

/-- The base layer, from tables under their names. -/
def ofBase (tables : List (String × Table Value)) : Layered :=
  ⟨.ofEntries tables, ⟨tables.length, 0, 0⟩, []⟩

/-- With one more file of the extended layer. -/
def extend (root : String) (l : Layered) (f : SourceFile) : Layered :=
  match f.parse with
  | .error e => { l with skips := l.skips ++ [.file .extended f.path e] }
  | .ok t =>
    { l with
      tables := l.tables.set (nameOf root f.path) t
      counts := { l.counts with extended := l.counts.extended + 1 } }

/-- With one more patch. -/
def patch (root : String) (l : Layered) (f : SourceFile) : Layered :=
  match f.parse with
  | .error e => { l with skips := l.skips ++ [.file .patch f.path e] }
  | .ok t =>
    let name := nameOf root f.path
    match l.tables.get? name with
    | none => { l with skips := l.skips ++ [.patch f.path name] }
    | some target =>
      { l with
        tables := l.tables.set name (Value.overlay target t)
        counts := { l.counts with patched := l.counts.patched + 1 } }

/-- The merged definitions in the order of their names. -/
def values (l : Layered) : Table (Table Value) :=
  (Text.sort l.tables.keys).filterMap fun name => (l.tables.get? name).map fun t => (name, t)

end Layered

/-- What became of the sources. -/
structure Resolution where
  /-- The merged definitions, in the order of their names. -/
  values : Table (Table Value)
  /-- The mobs among them that conform to the schema. -/
  mobs : Table Definition
  /-- The issues with the others. -/
  failures : List DefinitionError
  counts : LayerCounts
  skips : List Skip

namespace Resolution

/-- The mobs among merged definitions that conform to the schema. -/
def conforming (values : Table (Table Value)) : Table Definition :=
  values.filterMap fun (name, t) =>
    match Definition.read name (.table t) with
    | .ok m => some (name, m)
    | .error _ => none

/-- The issues with the merged definitions that do not. -/
def issues (values : Table (Table Value)) : List DefinitionError :=
  values.filterMap fun (name, t) =>
    match Definition.read name (.table t) with
    | .ok _ => none
    | .error e => some e

/-- The resolution that layered definitions end in. -/
def ofLayered (l : Layered) : Resolution :=
  let failures := issues l.values
  ⟨l.values, conforming l.values, failures, l.counts, l.skips ++ failures.map .mob⟩

end Resolution

/-- The tables of the base files under their names, or the first error. -/
def readBase (root : String) (files : List SourceFile) :
    Except ParseError (List (String × Table Value)) :=
  files.mapM fun f =>
    match f.parse with
    | .ok t => .ok (nameOf root f.path, t)
    | .error e => .error e

/-- The layers of sources, one over the other. -/
def layer (root : String) (s : Sources) : Except ParseError Layered :=
  match readBase root (byPath s.base) with
  | .error e => .error e
  | .ok tables =>
    let extended := (byPath s.extended).foldl (Layered.extend root) (.ofBase tables)
    .ok ((byPath s.patches).foldl (Layered.patch root) extended)

/-- The resolution of sources whose paths lie below an asset root. -/
def resolve (root : String) (s : Sources) : Except ParseError Resolution :=
  match layer root s with
  | .error e => .error e
  | .ok l => .ok (.ofLayered l)

end Bestiary
