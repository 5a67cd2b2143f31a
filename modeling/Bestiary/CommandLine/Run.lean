import Bestiary.CommandLine.Commands

/-!
# The command line

The arguments of the program as a whole: requests for help and for the version go first, then the
first argument names a command. Without one, the program prints how it is used.

* `CommandLine.program` is what arguments ask for, `CommandLine.run` carries it out on a disk.
-/

namespace Bestiary.CommandLine

/-- The version of the program. -/
def version : String := "0.1.0"

/-- How the program is used. -/
def helpLines : List String :=
  ["", "mobforge - layered mob definitions and behavior trees", "", "Usage:",
    "  mobforge init [--force]          Scaffold .mobforge/ config and mob directories",
    "  mobforge resolve                 Resolve base, extended and patch layers; list mobs",
    "  mobforge compile <ref>           Compile a resolved mob's behavior tree",
    "  mobforge validate <file>         Check a .mob or .mobpatch file",
    "  mobforge tree <file> [--path <p>]",
    "                                   List behavior tree nodes with their paths (p: 0.1)",
    "  mobforge edit <file> --ops <json|@file>",
    "                                   Apply behavior tree edits and save",
    "  mobforge --help                  Show this help",
    "  mobforge --version               Show version", "",
    "Edit ops (JSON object or array, \"path\" and \"command_path\" are index lists):",
    "  insert_child, fill_slot, delete, move, retype, set_field, remove_field,",
    "  insert_command, delete_command, move_command, retype_command,",
    "  set_param, remove_param, undo, redo", "", "Options:",
    "  --config <path>    Path to .mobforge/ directory (default: .mobforge/)",
    "  --format <type>    Output format: text, json (default: text)", ""]

/-- How the program is used, as one text. -/
def help : String := "\n".intercalate helpLines

/-- A text, or another if it is empty. -/
def orElse (text : Option String) (other : String) : String :=
  (text.filter fun s => s ≠ "").getD other

/-- The help printed. -/
def showHelp : Program ExitCode := do
  Program.print help
  pure .success

/-- The command of a name on its arguments. -/
def command (options : Options) (name : String) (args : List String) : Program ExitCode :=
  match name with
  | "init" => initCommand options args
  | "resolve" => resolveCommand options
  | "compile" => compileCommand options args
  | "validate" => validateCommand options args
  | "tree" => treeCommand options args
  | "edit" => editCommand options args
  | _ => throw (.error s!"Unknown command: {name}\n{help}")

/-- The format of a name. -/
def format? : String → Option Format
  | "text" => some .text
  | "json" => some .json
  | _ => none

/-- What arguments ask for. -/
def program (args : List String) : Program ExitCode := do
  let configPath := orElse (flagValue? "--config" args) ".mobforge"
  let formatName := orElse (flagValue? "--format" args) "text"
  if args.contains "--help" || args.contains "-h" then return ← showHelp
  if args.contains "--version" || args.contains "-v" then
    Program.print s!"mobforge v{version}"
    return .success
  let some format := format? formatName
    | throw (.error s!"Invalid --format value: {formatName}. Use text or json.")
  match args with
  | [] => showHelp
  | name :: rest =>
    if (Text.withoutStart? "-" name).isSome then showHelp
    else command ⟨configPath, format⟩ name rest

/-- What arguments ask for carried out on a disk. -/
def run (args : List String) (disk : Disk) : Program.Result := (program args).run disk

end Bestiary.CommandLine
