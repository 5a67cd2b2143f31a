import Bestiary.CommandLine.Program
import Bestiary.Editor.EditOp

/-!
# Commands

The commands of the program, each on the arguments after its name.

* `initCommand` sets a project up; `resolveCommand`, `compileCommand`, `validateCommand` and
  `treeCommand` report; `editCommand` edits a document and saves it.
-/

namespace Bestiary

open Program

/-- The failure of a command that is called in the wrong way. -/
def usage (text : String) : Failure := .error s!"Usage: mobforge {text}"

/-- The first positional argument, unless it is empty. -/
def firstPositional? (valueFlags args : List String) : Option String :=
  (positionals valueFlags args).head?.filter fun arg => arg ≠ ""

/-! ## Setting up -/

/-- What setting up a project did. -/
structure Setup where
  created : Bool
  configPath : String
  files : List String
  writes : Nat

/-- A report of setting up as JSON. -/
def Setup.toData (s : Setup) : Loose :=
  .table [("created", .flag s.created), ("configPath", .text s.configPath),
    ("files", .texts s.files), ("writesPerformed", .natural s.writes)]

/-- A report of setting up as lines. -/
def Setup.lines (s : Setup) : List String :=
  if !s.created && s.writes = 0 then
    [s!"  .mobforge/ already exists at {s.configPath}",
      "  Use --config <path> for a different location, or --force to rewrite the default config."]
  else
    [s!"  Initialized .mobforge/ at {s.configPath}/", "", "  Created:"] ++
      s.files.map (fun file => s!"    {file}") ++
      ["", "  Next steps:", s!"    1. Add base mobs under {Config.default.baseFolder}/",
        "    2. Run: mobforge resolve"]

/-- A text written to a file, unless it is there already. Gives the number of files written. -/
def writeIfChanged (path text : String) : OnDisk Nat := do
  if ← OnDisk.contains path then
    if Text.decodeMarked (← OnDisk.look (Disk.read · path)) = text then return 0
  OnDisk.step (Disk.write · path (Text.encode text))
  pure 1

/-- The settings and the folders of a project made. Settings that are there stay, unless `force` is
set. -/
def setUp (configPath : String) (force : Bool) : OnDisk Setup := do
  let path := Config.fileIn configPath
  let there ← OnDisk.contains path
  if there && !force then return ⟨false, configPath, [], 0⟩
  let folders := Config.default.inProject configPath
  for folder in [configPath, folders.baseFolder, folders.extendedFolder] do
    OnDisk.step (Disk.makeFolders · folder)
  let writes ← writeIfChanged path (Config.defaultText ++ "\n")
  pure ⟨!there, configPath,
    ["config.json", s!"{Config.default.baseFolder}/", s!"{Config.default.extendedFolder}/"], writes⟩

/-- Sets a project up. -/
def initCommand (options : Options) (args : List String) : Program ExitCode := do
  let setup ← onDisk (setUp options.configPath (args.contains "--force"))
  match options.format with
  | .json => printJson setup.toData
  | .text => setup.lines.forM print
  pure .success

/-! ## Reporting -/

/-- A mob that failed as JSON. -/
def failureData (e : DefinitionError) : Loose :=
  .table [("mob", .text e.entity), ("field", orNull Data.text e.field?),
    ("message", .text e.message)]

/-- Counts of layers as JSON. -/
def countsData (c : LayerCounts) : Loose :=
  .table [("base", .natural c.base), ("extended", .natural c.extended),
    ("patched", .natural c.patched)]

/-- A resolution as JSON. -/
def resolutionData (r : Resolution) (registry : Registry) : Loose :=
  .table [("layers", countsData r.counts), ("mobs", .texts registry.names),
    ("spawnable", .texts registry.spawnable), ("failures", .list (r.failures.map failureData))]

/-- A resolution as lines. -/
def resolutionLines (r : Resolution) (registry : Registry) : List String :=
  let spawnable := registry.spawnable
  let mark (name : String) : String := if spawnable.contains name then " (spawnable)" else ""
  [s!"  Layers: {r.counts.base} base, {r.counts.extended} extended, {r.counts.patched} patched",
    s!"  Resolved {registry.size} mob(s):"] ++
    registry.names.map (fun name => s!"    {name}{mark name}") ++
    (if r.failures.isEmpty then []
    else ["", s!"  {r.failures.length} mob(s) failed:"] ++
      r.failures.map fun e => s!"    {e.message}")

/-- Resolves the layers of the project and lists the mobs. -/
def resolveCommand (options : Options) : Program ExitCode := do
  let config ← loadConfig options
  let r ← resolveProject config
  let registry := Registry.build config.root r
  registry.warnings.forM warn
  match options.format with
  | .json => printJson (resolutionData r registry)
  | .text => (resolutionLines r registry).forM print
  pure (if r.failures.isEmpty then .success else .violation)

/-- A compiled tree as JSON. -/
def compiledData (name : String) (c : Option Compiled) : Loose :=
  let diagnostics := (c.map Compiled.diagnostics).getD []
  .table [("mob", .text name), ("tree", orNull (fun c => c.plan.toData) c),
    ("diagnostics", .list (diagnostics.map Diagnostic.toData))]

/-- A compiled tree as lines. -/
def compiledLines (name : String) : Option Compiled → List String
  | none => [s!"  {name} has no behavior"]
  | some c => c.plan.outline :: c.diagnostics.map fun d => s!"warning: {d.message}"

/-- Compiles the behavior tree of one mob. -/
def compileCommand (options : Options) (args : List String) : Program ExitCode := do
  let some ref := firstPositional? [] args | throw (usage "compile <mob-ref>")
  let config ← loadConfig options
  let r ← resolveProject config
  let name := nameOf config.root ref
  let some m := r.mobs.get? name | throw ⟨s!"Unknown mob: {ref}", .violation⟩
  let compiled := m.behavior.map Node.compile
  match options.format with
  | .json => printJson (compiledData name compiled)
  | .text => (compiledLines name compiled).forM print
  pure .success

/-- A remark as JSON. -/
def Remark.toData (r : Remark) : Loose :=
  .table [("path", .text r.place.text), ("message", .text r.problem.message),
    ("severity", .text r.problem.severity.name)]

/-- A verdict as the entries of a JSON object. -/
def Verdict.entries (v : Verdict) : List (String × Loose) :=
  [("issues", .list (v.remarks.map Remark.toData)), ("errorCount", .natural v.errorCount),
    ("warningCount", .natural v.warningCount), ("valid", .flag v.isValid)]

/-- A verdict as lines. -/
def Verdict.lines (v : Verdict) (file : String) : List String :=
  let outcome := if v.isValid then "valid" else "invalid"
  (if v.remarks.isEmpty then [] else [v.listing]) ++
    [s!"{file}: {outcome} ({v.errorCount} error(s), {v.warningCount} warning(s))"]

/-- The verdict on the document of a session. -/
def verdictOn (s : Session) : Program Verdict :=
  match s.validate with
  | .ok v => pure v
  | .error e => throw (.error e.message)

/-- Checks one document. -/
def validateCommand (options : Options) (args : List String) : Program ExitCode := do
  let some file := firstPositional? [] args | throw (usage "validate <file>")
  let document ← readDocument file
  let session := Session.start History.defaultLimit
  let v ← verdictOn (session.open file (.ofPath file) none document)
  match options.format with
  | .json => printJson (.table (("file", .text file) :: v.entries))
  | .text => (v.lines file).forM print
  pure (if v.isValid then .success else .violation)

/-- A listed node as JSON. -/
def treeLineData (l : Tree.Line) : Loose :=
  .table ([("path", .text (Tree.pathText l.path)), ("type", .text l.type)] ++
    (l.name.map fun name => ("name", .text name)).toList)

/-- A listed node as a line, indented from the base of the listing. -/
def treeLineText (base : Tree.Path) (l : Tree.Line) : String :=
  let label := match l.name with
    | some name => s!"{l.type} \"{name}\""
    | none => l.type
  Plan.indent (l.path.length - base.length) ++ s!"{Tree.pathText l.path}  {label}"

/-- Lists the nodes of the behavior tree of one document. -/
def treeCommand (options : Options) (args : List String) : Program ExitCode := do
  let some file := firstPositional? ["--path"] args | throw (usage "tree <file> [--path 0.1]")
  let typed := (flagValue? "--path" args).getD ""
  let some base := TreePath.read? typed | throw (.error (TreePath.invalidMessage typed))
  let document ← readDocument file
  let some behavior := document.get? "behavior"
    | throw ⟨s!"{file} has no behavior tree", .violation⟩
  let lines := (base.path?.map (Tree.describe behavior)).getD []
  if lines.isEmpty then throw ⟨s!"No node at path {base.text}", .violation⟩
  match options.format with
  | .json => printJson (.list (lines.map treeLineData))
  | .text => lines.forM fun l => print (treeLineText (base.path?.getD []) l)
  pure .success

/-! ## Editing -/

/-- The operations that an argument gives, or the file that it names. -/
def readOps (argument : String) : Program (List EditOp) := do
  let text ← match Text.withoutStart? "@" argument with
    | none => pure argument
    | some path => do
      if !(← onDisk (OnDisk.contains path)) then
        throw (.error s!"File not found for --ops: {path}")
      pure (Text.decodeMarked (← onDisk (OnDisk.look (Disk.read · path))))
  match EditOp.readAll text with
  | .ok ops => pure ops
  | .error e => throw (.error e.message)

/-- A session after operations, and how many of them changed the document. -/
def applyAll (s : Session) (ops : List EditOp) : Nat × Session :=
  ops.foldl (fun (n, s) op =>
    let (changed, s) := s.apply op
    (if changed then n + 1 else n, s)) (0, s)

/-- A text given to a file, for a session. -/
def writeFile (path text : String) : Program (Except String Unit) := do
  pure ((← attempt (MobFile.writeText path text)).mapError FileError.message)

/-- A session saved, and whether it was. -/
def saveSession (s : Session) : Program (Bool × Session) := do
  match ← s.save writeFile with
  | .ok r => pure r
  | .error e => throw (.error e.message)

/-- A message of the log as JSON. -/
def Status.toData (s : Status) : Loose :=
  .table [("level", .text s.level.name), ("message", .text s.message)]

/-- Edits the behavior tree of one document and saves it if it changed. -/
def editCommand (options : Options) (args : List String) : Program ExitCode := do
  let call := usage "edit <file> --ops <json|@file>"
  let some file := firstPositional? ["--ops"] args | throw call
  let some argument := (flagValue? "--ops" args).filter fun arg => arg ≠ "" | throw call
  let ops ← readOps argument
  let config ← loadConfig options
  let document ← readDocument file
  let opened := (Session.start config.historyLimit).open file (.ofPath file) none document
  let (applied, edited) := applyAll opened ops
  let modified := edited.isModified
  let (saved, session) ← if modified then saveSession edited else pure (false, edited)
  match options.format with
  | .json =>
    printJson (.table [("file", .text file), ("applied", .natural applied),
      ("saved", .flag saved), ("status", .list (session.log.entries.map Status.toData))])
  | .text =>
    session.log.entries.forM fun s => print s!"  [{s.level.name}] {s.message}"
    if !modified then print s!"  {file} unchanged"
  pure (if modified && !saved then .violation else .success)

end Bestiary
