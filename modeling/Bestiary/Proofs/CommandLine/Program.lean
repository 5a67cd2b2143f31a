import Bestiary.CommandLine.Program
import Bestiary.Proofs.Store.MobFile

/-!
# What programs do to the disk

A program works in a world: it reads the disk and may change it, and it prints. Most steps of the
commands only look: they leave the disk, and what comes of them depends on nothing but the disk, not
on what was printed before.

* `Program.on` carries a program out in a world; `Program.on_bind` and its like say how steps follow
  on each other.
* `Program.OnlyLooks` says of a program that it only looks, `Program.answer` is what comes of it.
* `Program.OnlyLooks.bind_cases` takes such a step off the front of a program.
* `Program.Gives` says of a report what it comes to: printing never fails.
-/

namespace Bestiary

namespace Program

variable {α β : Type} {p : Program α}

/-- A program carried out in a world: what comes of it, and the world after it. -/
def on (p : Program α) (w : World) : Except Failure α × World := (ExceptT.run p).run w

@[simp] theorem on_pure (a : α) (w : World) : (pure a : Program α).on w = (.ok a, w) := rfl

/-- What comes after a step is done in the world that the step leaves, unless the step has
failed. -/
theorem on_bind (p : Program α) (next : α → Program β) (w : World) :
    (p >>= next).on w =
      match p.on w with
      | (.ok a, w') => (next a).on w'
      | (.error e, w') => (.error e, w') := by
  unfold on
  rw [ExceptT.run_bind, StateT.run_bind]
  cases h : (ExceptT.run p).run w with
  | mk result w' => cases result <;> rfl

/-- Work on the disk is done on the disk of the world. -/
theorem on_attempt (work : OnDisk α) (w : World) :
    (attempt work).on w = (.ok (work.on w.disk).1, { w with disk := (work.on w.disk).2 }) := rfl

theorem on_onDisk (work : OnDisk α) (w : World) :
    (onDisk work).on w =
      ((work.on w.disk).1.mapError fun e => .error e.message,
        { w with disk := (work.on w.disk).2 }) := by
  unfold onDisk
  rw [on_bind, on_attempt]
  cases (work.on w.disk).1 <;> rfl

/-- The exit code that a result stands for. -/
def exitCode : Except Failure ExitCode → ExitCode
  | .ok code => code
  | .error e => e.code

/-- What is left of a program that is carried out on a disk. -/
theorem run_eq (p : Program ExitCode) (disk : Disk) :
    (p.run disk).world = (p.on ⟨disk, [], []⟩).2 ∧
      (p.run disk).code = exitCode (p.on ⟨disk, [], []⟩).1 := by
  unfold run on
  cases (ExceptT.run p).run ⟨disk, [], []⟩ with
  | mk result w => cases result <;> exact ⟨rfl, rfl⟩

/-! ## Programs that only look -/

/-- What comes of a program on a disk when nothing was printed before. -/
def answer (p : Program α) (disk : Disk) : Except Failure α := (p.on ⟨disk, [], []⟩).1

/-- The program leaves the disk, and what comes of it depends on the disk alone. -/
structure OnlyLooks (p : Program α) : Prop where
  disk_eq : ∀ w, (p.on w).2.disk = w.disk
  answer_eq : ∀ w, (p.on w).1 = p.answer w.disk

namespace OnlyLooks

protected theorem pure (a : α) : OnlyLooks (pure a : Program α) := ⟨fun _ => rfl, fun _ => rfl⟩

protected theorem throw (e : Failure) : OnlyLooks (throw e : Program α) :=
  ⟨fun _ => rfl, fun _ => rfl⟩

/-- What would come after a failure does not matter. -/
theorem throw_bind (e : Failure) (next : α → Program β) :
    OnlyLooks ((throw e : Program α) >>= next) := ⟨fun _ => rfl, fun _ => rfl⟩

protected theorem warn (line : String) : OnlyLooks (warn line) := ⟨fun _ => rfl, fun _ => rfl⟩

protected theorem attempt {work : OnDisk α} (h : work.Looks) : OnlyLooks (attempt work) :=
  ⟨fun w => by rw [on_attempt, h], fun _ => rfl⟩

protected theorem onDisk {work : OnDisk α} (h : work.Looks) : OnlyLooks (onDisk work) :=
  ⟨fun w => by rw [on_onDisk, h], fun w => by rw [answer, on_onDisk, on_onDisk]⟩

/-- **A step that only looks** is taken off the front of a program: it fails, or the rest is done
with its answer on the same disk. -/
theorem bind_cases (h : p.OnlyLooks) (next : α → Program β) (w : World) :
    (∃ e w', p.answer w.disk = .error e ∧ w'.disk = w.disk ∧ (p >>= next).on w = (.error e, w')) ∨
      ∃ a w', p.answer w.disk = .ok a ∧ w'.disk = w.disk ∧ (p >>= next).on w = (next a).on w' := by
  rw [on_bind, ← h.answer_eq w]
  have hdisk := h.disk_eq w
  cases hp : p.on w with
  | mk result w' =>
    rw [hp] at hdisk
    cases result with
    | error e => exact .inl ⟨e, w', rfl, hdisk, rfl⟩
    | ok a => exact .inr ⟨a, w', rfl, hdisk, rfl⟩

/-- Steps that only look, one after the other, only look. -/
protected theorem bind {next : α → Program β} (h : p.OnlyLooks) (h' : ∀ a, (next a).OnlyLooks) :
    (p >>= next).OnlyLooks := by
  have hcases : ∀ w, ((p >>= next).on w).2.disk = w.disk ∧
      ((p >>= next).on w).1 = match p.answer w.disk with
        | .error e => .error e
        | .ok a => (next a).answer w.disk := by
    intro w
    rcases h.bind_cases next w with ⟨e, w', hanswer, hdisk, hon⟩ | ⟨a, w', hanswer, hdisk, hon⟩
    · rw [hon, hanswer]
      exact ⟨hdisk, rfl⟩
    · rw [hon, hanswer, (h' a).disk_eq, (h' a).answer_eq, hdisk]
      exact ⟨rfl, rfl⟩
  refine ⟨fun w => (hcases w).1, fun w => ?_⟩
  rw [answer, (hcases w).2, (hcases ⟨w.disk, [], []⟩).2]

end OnlyLooks

/-! ## Reports -/

/-- The program comes to `a` whatever was done before, and leaves the disk. -/
def Gives (p : Program α) (a : α) : Prop := ∀ w, ∃ w', w'.disk = w.disk ∧ p.on w = (.ok a, w')

namespace Gives

theorem onlyLooks {a : α} (h : p.Gives a) : p.OnlyLooks := by
  have hone : ∀ w, (p.on w).1 = .ok a := by
    intro w
    obtain ⟨w', -, hon⟩ := h w
    rw [hon]
  refine ⟨fun w => ?_, fun w => (hone w).trans (hone _).symm⟩
  obtain ⟨w', hdisk, hon⟩ := h w
  rw [hon, ← hdisk]

protected theorem pure (a : α) : Gives (pure a : Program α) a := fun w => ⟨w, rfl, rfl⟩

protected theorem print (line : String) : Gives (print line) () :=
  fun w => ⟨{ w with output := w.output ++ [line] }, rfl, rfl⟩

protected theorem warn (line : String) : Gives (warn line) () :=
  fun w => ⟨{ w with warnings := w.warnings ++ [line] }, rfl, rfl⟩

protected theorem bind {next : α → Program β} {a : α} {b : β} (h : p.Gives a)
    (h' : (next a).Gives b) : (p >>= next).Gives b := by
  intro w
  obtain ⟨w', hdisk, hon⟩ := h w
  obtain ⟨w'', hdisk', hon'⟩ := h' w'
  exact ⟨w'', hdisk'.trans hdisk, by rw [on_bind, hon, ← hon']⟩

protected theorem forM {γ : Type} {f : γ → Program PUnit} (h : ∀ c, (f c).Gives ⟨⟩)
    (cs : List γ) : (cs.forM f).Gives ⟨⟩ := by
  induction cs with
  | nil => exact .pure _
  | cons c cs ih => exact (h c).bind ih

end Gives

end Program

/-! ## Shared steps -/

open Program

/-- The settings of a project are looked at only. -/
theorem onlyLooks_loadConfig (options : Options) : (loadConfig options).OnlyLooks := by
  unfold loadConfig
  refine (OnlyLooks.onDisk (OnDisk.looks_contains _)).bind fun there => ?_
  cases there with
  | false => exact .pure _
  | true =>
    refine (OnlyLooks.attempt (OnDisk.looks_look _)).bind fun content => ?_
    split
    · exact .pure _
    · exact (OnlyLooks.warn _).bind fun _ => .pure _

theorem onlyLooks_readDocument (path : String) : (readDocument path).OnlyLooks :=
  .onDisk (MobFile.looks_load path)

end Bestiary
