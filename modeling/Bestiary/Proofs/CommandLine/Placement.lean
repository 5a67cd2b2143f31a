import Bestiary.CommandLine.Run
import Bestiary.Proofs.CommandLine.Program
import Bestiary.Proofs.Text.Cut

/-!
# Where options may stand

The settings that every command takes are flags with a value. They are looked for among all
arguments, so that behind the name of the command they may stand anywhere, only not between another
flag and its value. In front of it they may not: an argument that starts with a dash takes the place
of the name, and the program shows how it is used.

* `haveValues` says of arguments that no flag in them is without its value; `flagValue?_append` and
  `positionals_append` say that such arguments are read on their own.
* `ReadAlike` relates arguments in which a command reads the same; `command_congr` and
  `CommandLine.program_congr`: then it does the same.
* `CommandLine.options_placement` says what comes of options before, among and behind the arguments.
-/

namespace Bestiary

/-- The flags that take a value: those of every command, and those of a single one. -/
def valueFlags : List String := globalFlags ++ ["--path", "--ops"]

/-- The requests that go before any command. -/
def requests : List String := ["--help", "-h", "--version", "-v"]

/-- Whether every flag that takes a value is followed by one, which is no such flag itself. -/
def haveValues : List String → Bool
  | [] => true
  | arg :: args =>
    (!valueFlags.contains arg || args.head?.any fun value => !valueFlags.contains value) &&
      haveValues args

variable {arg flag : String} {args args' more own : List String}

theorem haveValues_cons_iff :
    haveValues (arg :: args) = true ↔
      (arg ∈ valueFlags → ∃ value rest, args = value :: rest ∧ value ∉ valueFlags) ∧
        haveValues args = true := by
  cases args <;> simp [haveValues, Decidable.imp_iff_not_or]

theorem haveValues_append (h : haveValues args = true) (h' : haveValues more = true) :
    haveValues (args ++ more) = true := by
  induction args with
  | nil => exact h'
  | cons arg args ih =>
    rw [haveValues_cons_iff] at h
    rw [List.cons_append, haveValues_cons_iff]
    refine ⟨fun harg => ?_, ih h.2⟩
    obtain ⟨value, rest, rfl, hvalue⟩ := h.1 harg
    exact ⟨value, rest ++ more, rfl, hvalue⟩

/-! ## Reading arguments one after the other -/

theorem flagValue?_eq_none (h : flag ∉ args) : flagValue? flag args = none := by
  induction args with
  | nil => rfl
  | cons arg args ih =>
    rw [List.mem_cons, not_or] at h
    rw [flagValue?, if_neg (Ne.symm h.1), ih h.2]

/-- **A flag that is in the first arguments has its value there.** -/
theorem flagValue?_append (h : haveValues args = true) (hflag : flag ∈ valueFlags) :
    flagValue? flag (args ++ more) = (flagValue? flag args).or (flagValue? flag more) := by
  induction args with
  | nil => rfl
  | cons arg args ih =>
    rw [haveValues_cons_iff] at h
    rw [List.cons_append, flagValue?, flagValue?]
    split
    · rename_i harg
      obtain ⟨value, rest, rfl, -⟩ := h.1 (harg ▸ hflag)
      rfl
    · exact ih h.2

theorem positionals_cons (h : arg ∉ globalFlags ++ own) :
    positionals own (arg :: args) =
      (if isLongFlag arg then [] else [arg]) ++ positionals own args := by
  have hcontains : (globalFlags ++ own).contains arg = false := by
    rwa [Bool.eq_false_iff, Ne, List.contains_iff_mem]
  cases args with
  | nil => simp only [positionals, hcontains, Bool.false_or, List.append_nil]
  | cons next args =>
    simp only [positionals, hcontains, Bool.false_eq_true, if_false]
    split <;> rfl

theorem positionals_flag (h : arg ∈ globalFlags ++ own) (value : String) :
    positionals own (arg :: value :: args) = positionals own args := by
  rw [positionals, if_pos (List.contains_iff_mem.mpr h)]

/-- **What is neither a flag nor a value is found in the first arguments, then in the others.** -/
theorem positionals_append (hown : globalFlags ++ own ⊆ valueFlags) (h : haveValues args = true) :
    positionals own (args ++ more) = positionals own args ++ positionals own more := by
  -- A flag is skipped together with its value, so that the recursion is not one argument at a time.
  induction hlength : args.length using Nat.strongRecOn generalizing args with
  | _ n ih =>
    subst hlength
    cases args with
    | nil => rfl
    | cons arg args =>
      rw [haveValues_cons_iff] at h
      by_cases harg : arg ∈ globalFlags ++ own
      · obtain ⟨value, rest, rfl, -⟩ := h.1 (hown harg)
        rw [List.cons_append, List.cons_append, positionals_flag harg, positionals_flag harg]
        exact ih _ (by simp only [List.length_cons]; omega) (haveValues_cons_iff.mp h.2).2 rfl
      · rw [List.cons_append, positionals_cons harg, positionals_cons harg, List.append_assoc,
          ih _ (by simp) h.2 rfl]

/-! ## Reading alike -/

/-- The flags that single commands take with a value. -/
def ownFlags : List (List String) := [[], ["--path"], ["--ops"]]

/-- Arguments of which a command reads the same: the same are there, flags have the same values, and
what is left besides them is the same. -/
structure ReadAlike (args args' : List String) : Prop where
  mem_iff : ∀ arg, arg ∈ args ↔ arg ∈ args'
  value_eq : ∀ flag ∈ valueFlags, flagValue? flag args = flagValue? flag args'
  positionals_eq : ∀ own ∈ ownFlags, positionals own args = positionals own args'

namespace ReadAlike

theorem contains_eq (h : ReadAlike args args') (arg : String) :
    args.contains arg = args'.contains arg := by
  rw [Bool.eq_iff_iff, List.contains_iff_mem, List.contains_iff_mem, h.mem_iff]

theorem firstPositional?_eq (h : ReadAlike args args') (own : List String) (hown : own ∈ ownFlags) :
    firstPositional? own args = firstPositional? own args' := by
  rw [firstPositional?, firstPositional?, h.positionals_eq own hown]

end ReadAlike

/-- **A command does the same** on arguments in which it reads the same. -/
theorem command_congr (h : ReadAlike args args') (options : Options) (name : String) :
    CommandLine.command options name args = CommandLine.command options name args' := by
  have hpath : flagValue? "--path" args = flagValue? "--path" args' :=
    h.value_eq _ (by decide)
  have hops : flagValue? "--ops" args = flagValue? "--ops" args' := h.value_eq _ (by decide)
  unfold CommandLine.command
  split
  · simp only [initCommand, h.contains_eq]
  · rfl
  · simp only [compileCommand, h.firstPositional?_eq [] (by decide)]
  · simp only [validateCommand, h.firstPositional?_eq [] (by decide)]
  · simp only [treeCommand, h.firstPositional?_eq ["--path"] (by decide), hpath]
  · simp only [editCommand, h.firstPositional?_eq ["--ops"] (by decide), hops]
  · rfl

namespace CommandLine

open Program

variable {name : String} {before after : List String} {folder format : String}

/-- An argument that can name a command: one without a dash in front. -/
def CanNameCommand (name : String) : Prop := Text.withoutStart? "-" name = none

instance : DecidablePred CanNameCommand := fun _ => inferInstanceAs (Decidable (_ = _))

theorem CanNameCommand.not_mem (h : CanNameCommand name) : name ∉ valueFlags ++ requests := by
  have hdash : ∀ flag ∈ valueFlags ++ requests, ¬CanNameCommand flag := by decide
  exact fun hmem => hdash name hmem h

/-- So does the program on such arguments behind a name. -/
theorem program_congr (hname : CanNameCommand name) (h : ReadAlike args args') :
    program (name :: args) = program (name :: args') := by
  have hvalue : ∀ flag ∈ valueFlags,
      flagValue? flag (name :: args) = flagValue? flag (name :: args') := by
    intro flag hflag
    have hne : name ≠ flag := by
      rintro rfl
      exact hname.not_mem (List.mem_append_left _ hflag)
    rw [flagValue?, flagValue?, if_neg hne, if_neg hne, h.value_eq flag hflag]
  have hcontains : ∀ arg, (name :: args).contains arg = (name :: args').contains arg := by
    intro arg
    rw [List.contains_cons, List.contains_cons, h.contains_eq]
  unfold program
  simp only [hvalue "--config" (by decide), hvalue "--format" (by decide), hcontains,
    command_congr h]

/-! ## Options -/

/-- The settings of every command as arguments. -/
def options (folder format : String) : List String := ["--config", folder, "--format", format]

/-- An argument that is none of the flags the program knows by name and reads values or requests
from. -/
def IsPlain (arg : String) : Prop := arg ∉ valueFlags ++ requests

instance : DecidablePred IsPlain := fun _ => inferInstanceAs (Decidable (_ ∉ _))

/-- Arguments that hold neither settings nor requests. -/
def LeaveOptions (args : List String) : Prop := ∀ arg ∈ args, arg ∉ globalFlags ++ requests

instance : DecidablePred LeaveOptions := fun args =>
  inferInstanceAs (Decidable (∀ arg ∈ args, arg ∉ globalFlags ++ requests))

theorem IsPlain.ne (h : IsPlain arg) (hflag : flag ∈ valueFlags ++ requests) : arg ≠ flag := by
  rintro rfl
  exact h hflag

theorem haveValues_options (hfolder : IsPlain folder) (hformat : IsPlain format) :
    haveValues (options folder format) = true := by
  have hfolder' : folder ∉ valueFlags := fun h => hfolder (List.mem_append_left _ h)
  have hformat' : format ∉ valueFlags := fun h => hformat (List.mem_append_left _ h)
  simp only [options, haveValues_cons_iff]
  exact ⟨fun _ => ⟨_, _, rfl, hfolder'⟩, fun h => absurd h hfolder', fun _ => ⟨_, _, rfl, hformat'⟩,
    fun h => absurd h hformat', rfl⟩

theorem positionals_options (own : List String) : positionals own (options folder format) = [] := by
  have hmem : ∀ flag ∈ globalFlags, flag ∈ globalFlags ++ own := fun _ => List.mem_append_left _
  rw [options, positionals_flag (hmem _ (by decide)), positionals_flag (hmem _ (by decide)),
    positionals]

/-- The options are no flags of a single command. -/
theorem flagValue?_options_of_not_mem (hfolder : IsPlain folder) (hformat : IsPlain format)
    (hflag : flag ∈ valueFlags) (hown : flag ∉ globalFlags) :
    flagValue? flag (options folder format) = none := by
  refine flagValue?_eq_none ?_
  simp only [globalFlags, options, List.mem_cons, List.not_mem_nil, or_false, not_or] at hown ⊢
  have hmem := List.mem_append_left requests hflag
  exact ⟨hown.1, (hfolder.ne hmem).symm, hown.2, (hformat.ne hmem).symm⟩

/-- **Options are read alike** among the arguments and behind them. -/
theorem readAlike_options (hfolder : IsPlain folder) (hformat : IsPlain format)
    (hbefore : haveValues before = true) (hafter : haveValues after = true)
    (hleave : LeaveOptions (before ++ after)) :
    ReadAlike (before ++ (options folder format ++ after))
      (before ++ after ++ options folder format) := by
  have hoptions := haveValues_options hfolder hformat
  have hboth := haveValues_append hbefore hafter
  refine ⟨fun arg => ?_, fun flag hflag => ?_, fun own hown => ?_⟩
  · simp only [List.mem_append]
    tauto
  · rw [flagValue?_append hbefore hflag, flagValue?_append hoptions hflag,
      flagValue?_append hboth hflag, flagValue?_append hbefore hflag, Option.or_assoc]
    -- Either the arguments or the options have nothing to say of a flag.
    by_cases hown : flag ∈ globalFlags
    · have hnone : flagValue? flag after = none := flagValue?_eq_none fun hmem =>
        hleave flag (List.mem_append_right _ hmem) (List.mem_append_left _ hown)
      rw [hnone, Option.or_none, Option.none_or]
    · rw [flagValue?_options_of_not_mem hfolder hformat hflag hown, Option.or_none, Option.none_or]
  · have hsubset : globalFlags ++ own ⊆ valueFlags := by
      have hall : ∀ own ∈ ownFlags, globalFlags ++ own ⊆ valueFlags := by decide
      exact hall own hown
    rw [positionals_append hsubset hbefore, positionals_append hsubset hoptions,
      positionals_append hsubset hboth, positionals_append hsubset hbefore, positionals_options,
      List.nil_append, List.append_nil]

/-! ## The program -/

section Program

/-- The format that is asked for. -/
def formatName (args : List String) : String := orElse (flagValue? "--format" args) "text"

theorem contains_eq_false (hrequests : ∀ arg ∈ args, arg ∉ requests) (flag : String)
    (hflag : flag ∈ requests) : args.contains flag = false := by
  rw [Bool.eq_false_iff, Ne, List.contains_iff_mem]
  exact fun hmem => hrequests flag hmem hflag

/-- Without a request for help or for the version, the format is checked first. -/
theorem program_of_format?_eq_none (hrequests : ∀ arg ∈ args, arg ∉ requests)
    (h : format? (formatName args) = none) :
    program args =
      throw (.error ("Invalid --format value: " ++ formatName args ++ ". Use text or json.")) := by
  unfold program
  unfold formatName at h
  simp only [contains_eq_false hrequests "--help" (by decide), h,
    contains_eq_false hrequests "-h" (by decide),
    contains_eq_false hrequests "--version" (by decide),
    contains_eq_false hrequests "-v" (by decide)]
  rfl

/-- Then an argument with a dash in the place of the name shows how the program is used. -/
theorem program_of_dash (hrequests : ∀ arg ∈ args, arg ∉ requests)
    (hfirst : ∃ flag rest, args = flag :: rest ∧ ¬CanNameCommand flag)
    (h : format? (formatName args) ≠ none) : program args = showHelp := by
  obtain ⟨flag, rest, rfl, hflag⟩ := hfirst
  obtain ⟨format, hformat⟩ := Option.ne_none_iff_exists'.mp h
  have hdash : (Text.withoutStart? "-" flag).isSome = true := Option.isSome_iff_ne_none.mpr hflag
  unfold program
  unfold formatName at hformat
  simp only [contains_eq_false hrequests "--help" (by decide), hformat,
    contains_eq_false hrequests "-h" (by decide),
    contains_eq_false hrequests "--version" (by decide),
    contains_eq_false hrequests "-v" (by decide), hdash]
  rfl

end Program

/-- Among the options, the name and the arguments there is no request. -/
theorem not_mem_requests (hfolder : IsPlain folder) (hformat : IsPlain format)
    (hname : CanNameCommand name) (hleave : LeaveOptions args)
    (harg : arg ∈ options folder format ∨ arg = name ∨ arg ∈ args) : arg ∉ requests := by
  rcases harg with hmem | rfl | hmem
  · have hglobal : ∀ flag ∈ globalFlags, flag ∉ requests := by decide
    simp only [options, List.mem_cons, List.not_mem_nil, or_false] at hmem
    rcases hmem with rfl | rfl | rfl | rfl
    · exact hglobal _ (by decide)
    · exact fun h => hfolder (List.mem_append_right _ h)
    · exact hglobal _ (by decide)
    · exact fun h => hformat (List.mem_append_right _ h)
  · exact fun h => hname.not_mem (List.mem_append_right _ h)
  · exact fun h => hleave _ hmem (List.mem_append_right _ h)

theorem flagValue?_format_options (hfolder : IsPlain folder) :
    flagValue? "--format" (options folder format) = some format := by
  rw [options, flagValue?, if_neg (by decide), flagValue?, if_neg (hfolder.ne (by decide)),
    flagValue?, if_pos rfl, List.head?_cons]

/-- The format of options is the one that is asked for, in front of the name or behind it. -/
theorem formatName_options (hfolder : IsPlain folder) (hformat : IsPlain format)
    (hname : CanNameCommand name) (hargs : haveValues args = true) (hleave : LeaveOptions args) :
    formatName (options folder format ++ name :: args) = orElse (some format) "text" ∧
      formatName (name :: (args ++ options folder format)) = orElse (some format) "text" := by
  have hflag : "--format" ∈ valueFlags := by decide
  have hargsNone : flagValue? "--format" args = none :=
    flagValue?_eq_none fun hmem => hleave _ hmem (by decide)
  have hnameNe : name ≠ "--format" := by
    rintro rfl
    exact hname.not_mem (by decide)
  constructor
  · rw [formatName, flagValue?_append (haveValues_options hfolder hformat) hflag,
      flagValue?_format_options hfolder, Option.some_or]
  · rw [formatName, flagValue?, if_neg hnameNe, flagValue?_append hargs hflag, hargsNone,
      Option.none_or, flagValue?_format_options hfolder]

/-- **Options may stand anywhere behind the name of the command, and not in front of it.** Among the
arguments of a command, as long as no flag is torn from its value, they do what they do behind all
arguments, whatever the command is and whatever is on the disk. In front of the name they keep the
program from doing anything but show how it is used; only if they name no format, that is an error
in either place. -/
theorem options_placement (hfolder : IsPlain folder) (hformat : IsPlain format)
    (hname : CanNameCommand name) (hbefore : haveValues before = true)
    (hafter : haveValues after = true) (hleave : LeaveOptions (before ++ after)) (disk : Disk) :
    run (name :: (before ++ (options folder format ++ after))) disk =
        run (name :: (before ++ after ++ options folder format)) disk ∧
      ((format? (orElse (some format) "text")).isSome →
        run (options folder format ++ name :: (before ++ after)) disk =
          ⟨.success, [], ⟨disk, [help], []⟩⟩) ∧
      (format? (orElse (some format) "text") = none →
        run (options folder format ++ name :: (before ++ after)) disk =
          run (name :: (before ++ after ++ options folder format)) disk) := by
  have hboth := haveValues_append hbefore hafter
  have hleading : ∀ arg ∈ options folder format ++ name :: (before ++ after), arg ∉ requests :=
    fun arg harg => not_mem_requests hfolder hformat hname hleave (by simpa using harg)
  have htrailing : ∀ arg ∈ name :: (before ++ after ++ options folder format), arg ∉ requests :=
    fun arg harg => not_mem_requests hfolder hformat hname hleave (by
      simp only [List.mem_cons, List.mem_append] at harg ⊢
      tauto)
  refine ⟨?_, fun hsome => ?_, fun hnone => ?_⟩
  · rw [run, run, program_congr hname (readAlike_options hfolder hformat hbefore hafter hleave)]
  · have hformatName := (formatName_options hfolder hformat hname hboth hleave).1
    have hhelp : program (options folder format ++ name :: (before ++ after)) = showHelp :=
      program_of_dash hleading ⟨_, _, rfl, by decide⟩
        (Option.isSome_iff_ne_none.mp (hformatName.symm ▸ hsome))
    rw [run, hhelp]
    rfl
  · obtain ⟨hfirst, hlast⟩ := formatName_options hfolder hformat hname hboth hleave
    rw [run, run, program_of_format?_eq_none hleading (by rw [hfirst, hnone]),
      program_of_format?_eq_none htrailing (by rw [hlast, hnone]), hfirst, hlast]

/-- An edit with its options among its arguments, and the same options in front. -/
theorem options_placement_edit :
    IsPlain "nest/.mobforge" ∧ IsPlain "json" ∧ CanNameCommand "edit" ∧
      haveValues ["moth.mob"] = true ∧ haveValues ["--ops", "[]"] = true ∧
      LeaveOptions ["moth.mob", "--ops", "[]"] ∧
      run ["edit", "moth.mob", "--config", "nest/.mobforge", "--format", "json", "--ops", "[]"]
          Disk.empty =
        run ["edit", "moth.mob", "--ops", "[]", "--config", "nest/.mobforge", "--format", "json"]
          Disk.empty ∧
      run ["--config", "nest/.mobforge", "--format", "json", "edit", "moth.mob", "--ops", "[]"]
          Disk.empty = ⟨.success, [], ⟨Disk.empty, [help], []⟩⟩ := by
  have hfolder : IsPlain "nest/.mobforge" := by decide
  have hformat : IsPlain "json" := by decide
  have hname : CanNameCommand "edit" := by decide
  have hbefore : haveValues ["moth.mob"] = true := by decide
  have hafter : haveValues ["--ops", "[]"] = true := by decide
  have hleave : LeaveOptions (["moth.mob"] ++ ["--ops", "[]"]) := by decide
  obtain ⟨hamong, hfront, -⟩ :=
    options_placement hfolder hformat hname hbefore hafter hleave Disk.empty
  exact ⟨hfolder, hformat, hname, hbefore, hafter, hleave, hamong, hfront rfl⟩

/-- A project is not set up when its folder is named in front of the command. -/
theorem run_ne_of_options_first :
    run ["--config", "nest/.mobforge", "--format", "text", "init"] Disk.empty ≠
      run ["init", "--config", "nest/.mobforge", "--format", "text"] Disk.empty := by
  intro h
  have hlines := congrArg (fun r => r.world.output.length) h
  exact absurd hlines (by decide +kernel)

end CommandLine

end Bestiary
