import Bestiary.CommandLine.Run
import Bestiary.Proofs.CommandLine.Program
import Bestiary.Proofs.Editor.Preview
import Bestiary.Proofs.Editor.Validity

/-!
# What an edit leaves on the disk

An `edit` reads its operations, the settings and a document, applies the operations in a session,
and saves the document if they changed it. Up to the save it only looks at the disk, and after it
only prints; the save itself is one text written over one file.

* `EditRun.ofDisk?` is the edit that arguments ask for on a disk, when it comes to saving;
  `editCommand_cases` says that the command is that edit, or a failure before it.
* `Session.exists_document_applyAll`: the operations leave the path of the document and what was
  loaded.
* `on_saveSession`: a save writes the valid document, or leaves the file.
* `CommandLine.edit_allOrNothing`: an edit saves its document as a whole, or leaves the file.
-/

namespace Bestiary

open Program

/-! ## The document through the operations -/

namespace Session

variable {s : Session} {d : OpenDocument}

/-- **Step**: an operation leaves the path of the document and what was loaded. -/
theorem exists_document_apply (hd : s.document = some d) (op : EditOp) :
    ∃ d', (s.apply op).2.document = some d' ∧ d'.path = d.path ∧ d'.saved = d.saved := by
  have hchange : SessionStep.change (.apply op) ≠ .stay := by cases op <;> exact nofun
  rcases (perform_spec hd (.apply op)).stays_or_turns hchange with
    hstays | ⟨_, current, hmoves, -⟩
  · exact ⟨d, hstays.document.trans hd, rfl, rfl⟩
  · exact ⟨d.replace current, hmoves.document, rfl, rfl⟩

/-- **Run**: so do all operations together. -/
theorem exists_document_applyAll (hd : s.document = some d) (ops : List EditOp) :
    ∃ d', (applyAll s ops).2.document = some d' ∧ d'.path = d.path ∧ d'.saved = d.saved := by
  suffices h : ∀ f : Nat × Session → EditOp → Nat × Session,
      (∀ p op, (f p op).2 = (p.2.apply op).2) → ∀ p d, p.2.document = some d →
        ∃ d', (ops.foldl f p).2.document = some d' ∧ d'.path = d.path ∧ d'.saved = d.saved from
    h _ (fun _ _ => rfl) (0, s) d hd
  intro f hf
  induction ops with
  | nil => exact fun _ d h => ⟨d, h, rfl, rfl⟩
  | cons op ops ih =>
    intro p d h
    obtain ⟨next, hnext, hpath, hsaved⟩ := exists_document_apply h op
    obtain ⟨last, hlast, hpath', hsaved'⟩ := ih (f p op) next (by rw [hf, hnext])
    exact ⟨last, hlast, hpath'.trans hpath, hsaved'.trans hsaved⟩

end Session

/-! ## Up to the save -/

theorem onlyLooks_readOps (argument : String) : (readOps argument).OnlyLooks := by
  unfold readOps
  cases Text.withoutStart? "@" argument with
  | none =>
    simp only [pure_bind]
    split
    · exact .pure _
    · exact .throw _
  | some path =>
    refine (OnlyLooks.onDisk (OnDisk.looks_contains path)).bind fun there => ?_
    cases there with
    | false => exact .throw_bind _ _
    | true =>
      refine (OnlyLooks.onDisk (OnDisk.looks_look _)).bind fun content => ?_
      simp only [pure_bind]
      split
      · exact .pure _
      · exact .throw _

/-- A document that is read is what the content of a file says. -/
theorem exists_look_of_readDocument {path : String} {disk : Disk} {t : Table Value}
    (h : ((readDocument path).answer disk).toOption = some t) :
    ∃ content, disk.look path = some (some content) ∧
      Toml.parseBytes content (some path) = .ok t := by
  refine MobFile.exists_look_of_load ?_
  rw [readDocument, answer, on_onDisk] at h
  simp only at h
  cases hload : ((MobFile.load path).on disk).1 with
  | error e => simp [hload, Except.mapError, Except.toOption] at h
  | ok t' => simpa [hload, Except.mapError, Except.toOption] using h

/-- An edit when it comes to saving. -/
structure EditRun where
  file : String
  /-- The document that was in the file. -/
  loaded : Table Value
  /-- The session after the operations. -/
  session : Session

/-- The edit that arguments ask for on a disk, if it comes to saving: there are a file and
operations, all can be read, and the file holds a document. -/
def EditRun.ofDisk? (options : Options) (args : List String) (disk : Disk) : Option EditRun := do
  let file ← firstPositional? ["--ops"] args
  let argument ← (flagValue? "--ops" args).filter fun arg => arg ≠ ""
  let ops ← ((readOps argument).answer disk).toOption
  let config ← ((loadConfig options).answer disk).toOption
  let loaded ← ((readDocument file).answer disk).toOption
  let opened := (Session.start config.historyLimit).open file (.ofPath file) none loaded
  pure ⟨file, loaded, (applyAll opened ops).2⟩

/-- The session of an edit has the document of the file that is named, which is what the file
says. -/
theorem EditRun.exists_document {options : Options} {args : List String} {disk : Disk} {r : EditRun}
    (h : EditRun.ofDisk? options args disk = some r) :
    firstPositional? ["--ops"] args = some r.file ∧
      ∃ d content, r.session.document = some d ∧ d.path = r.file ∧ d.saved = r.loaded ∧
        disk.look r.file = some (some content) ∧
        Toml.parseBytes content (some r.file) = .ok r.loaded := by
  unfold EditRun.ofDisk? at h
  simp only [Option.bind_eq_bind, Option.bind_eq_some_iff, Option.pure_def, Option.some.injEq] at h
  obtain ⟨file, hfile, argument, -, ops, -, config, -, loaded, hloaded, rfl⟩ := h
  obtain ⟨d, hd, hpath, hsaved⟩ := Session.exists_document_applyAll
    (s := (Session.start config.historyLimit).open file (.ofPath file) none loaded) rfl ops
  obtain ⟨content, hlook, hparse⟩ := exists_look_of_readDocument hloaded
  exact ⟨hfile, d, content, hd, hpath, hsaved, hlook, hparse⟩

/-- **Before it saves, an edit only looks**: it fails, or saves what its operations made of the
document if they changed it, and reports. -/
theorem editCommand_cases (options : Options) (args : List String) (w : World) :
    (EditRun.ofDisk? options args w.disk = none ∧
        ∃ e w', w'.disk = w.disk ∧ (editCommand options args).on w = (.error e, w')) ∨
      ∃ r w', ∃ report : Bool × Session → Program ExitCode,
        EditRun.ofDisk? options args w.disk = some r ∧ w'.disk = w.disk ∧
        (editCommand options args).on w =
          ((if r.session.isModified then saveSession r.session else pure (false, r.session)) >>=
            report).on w' ∧
        ∀ saved session, (report (saved, session)).Gives
          (if r.session.isModified && !saved then .violation else .success) := by
  unfold editCommand EditRun.ofDisk?
  simp only
  cases firstPositional? ["--ops"] args with
  | none => exact .inl ⟨rfl, _, w, rfl, rfl⟩
  | some file =>
    cases (flagValue? "--ops" args).filter fun arg => arg ≠ "" with
    | none => exact .inl ⟨rfl, _, w, rfl, rfl⟩
    | some argument =>
      simp only [Option.pure_def, Option.bind_eq_bind, Option.bind_some]
      -- Each step that looks hands its answer on; where it fails, so does the whole edit.
      rcases (onlyLooks_readOps argument).bind_cases _ w with
        ⟨e, w', hops, hdisk, hon⟩ | ⟨ops, w₁, hops, hdisk₁, hon₁⟩
      · rw [hops, hon]
        exact .inl ⟨rfl, e, w', hdisk, rfl⟩
      rw [hops, hon₁]
      rcases (onlyLooks_loadConfig options).bind_cases _ w₁ with
        ⟨e, w', hconfig, hdisk, hon⟩ | ⟨config, w₂, hconfig, hdisk₂, hon₂⟩
      · rw [hdisk₁] at hconfig
        rw [hconfig, hon]
        exact .inl ⟨rfl, e, w', hdisk.trans hdisk₁, rfl⟩
      rw [hdisk₁] at hconfig hdisk₂
      rw [hconfig, hon₂]
      rcases (onlyLooks_readDocument file).bind_cases _ w₂ with
        ⟨e, w', hloaded, hdisk, hon⟩ | ⟨loaded, w₃, hloaded, hdisk₃, hon₃⟩
      · rw [hdisk₂] at hloaded hdisk
        rw [hloaded, hon]
        exact .inl ⟨rfl, e, w', hdisk, rfl⟩
      rw [hdisk₂] at hloaded hdisk₃
      rw [hloaded, hon₃]
      simp only [Except.toOption, Option.bind_some]
      obtain ⟨applied, edited⟩ := applyAll ((Session.start config.historyLimit).open file
        (.ofPath file) none loaded) ops
      simp only
      cases hmodified : edited.isModified with
      | true =>
        simp only [if_true]
        refine .inr ⟨_, w₃, _, rfl, hdisk₃, by rw [if_pos hmodified], fun saved session => ?_⟩
        simp only [hmodified]
        split
        · exact (Gives.print _).bind (.pure _)
        · exact (Gives.forM (fun _ => .print _) _).bind (.pure _)
      | false =>
        simp only [Bool.false_eq_true, if_false]
        refine .inr ⟨_, w₃, _, rfl, hdisk₃, by rw [if_neg (by simp [hmodified])],
          fun saved session => ?_⟩
        simp only [hmodified]
        split
        · exact (Gives.print _).bind (.pure _)
        · exact (Gives.forM (fun _ => .print _) _).bind ((Gives.print _).bind (.pure _))

/-! ## The save -/

open MobFile (backupOf draftOf)

/-- A valid document is in its file, what was in the file is in the copy, and no draft is left. -/
structure OpenDocument.SavedOver (d : OpenDocument) (content : List UInt8) (disk : Disk) :
    Prop where
  valid : d.IsValid
  file : ∃ text, Toml.write d.current = .ok text ∧
    disk.look d.path = some (some (Text.encode text))
  copy : disk.look (backupOf d.path) = some (some content)
  draft : disk.look (draftOf d.path) = none

/-- What comes of a save over a file with some content, and what it leaves on the disk. Whatever
else than a success comes of it, the file is as it was. -/
structure SaveOutcome (d : OpenDocument) (content : List UInt8) (disk : Disk)
    (result : Except Failure (Bool × Session)) (after : Disk) : Prop where
  frame : disk.DiffersOnlyAt [d.path, backupOf d.path, draftOf d.path] after
  saved : ∀ s, result = .ok (true, s) → d.SavedOver content after
  failed : (∀ s, result ≠ .ok (true, s)) → after.look d.path = disk.look d.path
  code : ∀ e, result = .error e → e.code ≠ .success

theorem on_writeFile (path text : String) (w : World) :
    (writeFile path text).on w =
      (.ok (((MobFile.writeText path text).on w.disk).1.mapError FileError.message),
        { w with disk := ((MobFile.writeText path text).on w.disk).2 }) := rfl

/-- **A save writes the valid document, or leaves the file.** -/
theorem on_saveSession {s : Session} {d : OpenDocument} {content : List UInt8} {w : World}
    (hd : s.document = some d) (h : w.disk.look d.path = some (some content)) :
    SaveOutcome d content w.disk ((saveSession s).on w).1 ((saveSession s).on w).2.disk := by
  unfold saveSession Session.save
  cases hattempt : s.attempt Toml.numberText with
  | error result =>
    rcases Session.attempt_error hattempt with ⟨e, rfl⟩ | ⟨message, rfl⟩
    · exact ⟨.refl _ _, nofun, fun _ => rfl, by rintro _ ⟨⟩; exact nofun⟩
    · exact ⟨.refl _ _, nofun, fun _ => rfl, nofun⟩
  | ok handed =>
    obtain ⟨d', text⟩ := handed
    obtain ⟨hd', ⟨v, hv, hvalid⟩, htext⟩ := Session.attempt_eq_ok_iff.mp hattempt
    obtain rfl : d = d' := Option.some.inj (hd.symm.trans hd')
    have hdvalid : d.IsValid := by
      unfold Session.validate at hv
      rw [hd] at hv
      exact ⟨v, hv, hvalid⟩
    have hwritten := MobFile.on_writeText h text
    simp only [on_bind, on_writeFile, on_pure]
    cases hresult : ((MobFile.writeText d.path text).on w.disk).1 with
    | error e =>
      refine ⟨hwritten.frame, nofun, fun _ => ?_, nofun⟩
      exact (hwritten.failed e hresult).trans h.symm
    | ok _ =>
      obtain ⟨hfile, hcopy, hdraft⟩ := hwritten.done hresult
      refine ⟨hwritten.frame, fun _ _ => ⟨hdvalid, ⟨text, htext, hfile⟩, hcopy, hdraft⟩,
        fun hnot => absurd rfl (hnot _), nofun⟩

/-! ## The whole edit -/

/-- What an edit leaves of the disk when the document that it would save is `d`, the file of the
document has some content, and it ends with an exit code. -/
structure EditOutcome (d : OpenDocument) (content : List UInt8) (code : ExitCode)
    (disk after : Disk) : Prop where
  /-- Nothing is made, taken away or changed but the file, its copy and its draft. -/
  frame : disk.DiffersOnlyAt [d.path, backupOf d.path, draftOf d.path] after
  /-- After a success, a document that was changed is in the file. -/
  saved : code = .success → d.isModified = true → d.SavedOver content after
  /-- After a failure, the file is as it was. -/
  failed : code ≠ .success → after.look d.path = some (some content)
  /-- A document that was not changed is not saved. -/
  unmodified : d.isModified = false → after = disk

/-- A document that was changed is saved, and a report follows. -/
theorem editOutcome_of_modified {s : Session} {d : OpenDocument} {content : List UInt8} {w : World}
    {report : Bool × Session → Program ExitCode} (hd : s.document = some d)
    (h : w.disk.look d.path = some (some content)) (hmodified : d.isModified = true)
    (hreport : ∀ saved session, (report (saved, session)).Gives
      (if !saved then .violation else .success)) :
    EditOutcome d content (exitCode ((saveSession s >>= report).on w).1) w.disk
      ((saveSession s >>= report).on w).2.disk := by
  have hsave := on_saveSession hd h
  have hnever : d.isModified ≠ false := by simp [hmodified]
  rw [on_bind]
  cases hon : (saveSession s).on w with
  | mk result w' =>
    rw [hon] at hsave
    cases result with
    | error e =>
      exact ⟨hsave.frame, fun hcode => absurd hcode (hsave.code e rfl),
        fun _ => (hsave.failed nofun).trans h, fun hnot => absurd hnot hnever⟩
    | ok answer =>
      obtain ⟨saved, session⟩ := answer
      obtain ⟨w'', hdisk, hgives⟩ := hreport saved session w'
      simp only [hgives, exitCode, hdisk]
      cases saved with
      | false =>
        exact ⟨hsave.frame, nofun, fun _ => (hsave.failed nofun).trans h,
          fun hnot => absurd hnot hnever⟩
      | true =>
        exact ⟨hsave.frame, fun _ _ => hsave.saved session rfl, fun hcode => absurd rfl hcode,
          fun hnot => absurd hnot hnever⟩

/-- A document that was not changed is reported on only. -/
theorem editOutcome_of_unmodified {s : Session} {d : OpenDocument} {content : List UInt8}
    {w : World} {report : Bool × Session → Program ExitCode} (hmodified : d.isModified = false)
    (hreport : (report (false, s)).Gives .success) :
    EditOutcome d content (exitCode ((pure (false, s) >>= report).on w).1) w.disk
      ((pure (false, s) >>= report).on w).2.disk := by
  obtain ⟨w', hdisk, hgives⟩ := hreport w
  rw [pure_bind, hgives, hdisk]
  exact ⟨.refl _ _, fun _ hnot => absurd hnot (by simp [hmodified]), fun hcode => absurd rfl hcode,
    fun _ => rfl⟩

namespace CommandLine

/-- The options of an edit; none if help or the version is asked for, or no format is named. -/
def editOptions? (args : List String) : Option Options :=
  if args.contains "--help" || args.contains "-h" then none
  else if args.contains "--version" || args.contains "-v" then none
  else (format? (orElse (flagValue? "--format" args) "text")).map fun format =>
    ⟨orElse (flagValue? "--config" args) ".mobforge", format⟩

/-- An edit is the edit command on the arguments after its name, or looks at the disk only. -/
theorem program_edit (args : List String) :
    match editOptions? ("edit" :: args) with
    | some options => program ("edit" :: args) = editCommand options args
    | none => (program ("edit" :: args)).OnlyLooks := by
  have hprint : ∀ line, OnlyLooks (do print line; pure ExitCode.success) := fun line =>
    (Gives.bind (.print line) (.pure ExitCode.success)).onlyLooks
  unfold program editOptions?
  simp only
  by_cases hhelp : (("edit" :: args).contains "--help" || ("edit" :: args).contains "-h") = true
  · rw [if_pos hhelp, if_pos hhelp]
    exact hprint help
  rw [if_neg hhelp, if_neg hhelp]
  by_cases hversion :
      (("edit" :: args).contains "--version" || ("edit" :: args).contains "-v") = true
  · rw [if_pos hversion, if_pos hversion]
    exact hprint _
  rw [if_neg hversion, if_neg hversion]
  cases format? (orElse (flagValue? "--format" ("edit" :: args)) "text") with
  | none => exact .throw _
  | some format => rfl

/-- The edit that arguments ask for on a disk, if it comes to saving. -/
def editRun? (args : List String) (disk : Disk) : Option EditRun :=
  (editOptions? ("edit" :: args)).bind fun options => EditRun.ofDisk? options args disk

/-- **An edit is all or nothing.** On every disk and with all arguments after its name, an edit that
does not come to saving leaves the disk. Any other one touches only the file that it names, the copy
and the draft; the file changes only when the edit succeeds and its operations made a document of
what was loaded that differs from it, and then it holds the text of that document, which is valid,
and the copy holds what was in the file. -/
theorem edit_allOrNothing (args : List String) (disk : Disk) :
    let result := run ("edit" :: args) disk
    match editRun? args disk with
    | none => result.world.disk = disk
    | some r => firstPositional? ["--ops"] args = some r.file ∧ ∃ d content,
        r.session.document = some d ∧ d.path = r.file ∧ d.saved = r.loaded ∧
        disk.look r.file = some (some content) ∧
        Toml.parseBytes content (some r.file) = .ok r.loaded ∧
        EditOutcome d content result.code disk result.world.disk := by
  intro result
  obtain ⟨hworld, hcode⟩ : result.world = _ ∧ result.code = _ := run_eq _ disk
  clear_value result
  have hedit := program_edit args
  unfold editRun?
  cases hoptions : editOptions? ("edit" :: args) with
  | none =>
    rw [hoptions] at hedit
    exact (congrArg World.disk hworld).trans (hedit.disk_eq _)
  | some options =>
    rw [hoptions] at hedit
    simp only at hedit
    rw [hedit] at hworld hcode
    rw [Option.bind_some]
    rcases editCommand_cases options args ⟨disk, [], []⟩ with
      ⟨hnone, e, w', hdisk, hon⟩ | ⟨r, w', report, hrun, hdisk, hon, hreport⟩
    · rw [hnone]
      rw [hon] at hworld
      exact (congrArg World.disk hworld).trans hdisk
    · rw [hrun]
      obtain ⟨hfile, d, content, hd, hpath, hsaved, hlook, hparse⟩ := EditRun.exists_document hrun
      refine ⟨hfile, d, content, hd, hpath, hsaved, hlook, hparse, ?_⟩
      have hmodified : r.session.isModified = d.isModified := by rw [Session.isModified, hd]; rfl
      have hlook' : w'.disk.look d.path = some (some content) := by rw [hdisk, hpath, hlook]
      rw [hcode, hworld, hon]
      rw [hmodified] at hreport ⊢
      simp only at hdisk
      rw [← hdisk]
      cases hchanged : d.isModified with
      | true =>
        simp only [hchanged, Bool.true_and] at hreport
        exact editOutcome_of_modified hd hlook' hchanged hreport
      | false =>
        simp only [hchanged, Bool.false_and] at hreport
        exact editOutcome_of_unmodified hchanged (hreport false r.session)

end CommandLine

end Bestiary
