import Bestiary.Proofs.Editor.Run

/-!
# What holds of every snapshot

A session can go back to every document in its history. A property that edits keep therefore has to
hold of the current document and of all snapshots at once; then no operation breaks it.

* `Session.AllHold` says that a property holds of all documents of a session.
* `Session.run_allHold`: it still does after any operations that keep it, and the document is still
  that of the same file.
* `OpenDocument.IsUpToDate` says that the kept definition is that of the current document, which
  goes with the file.
-/

namespace Bestiary

/-- A change that makes documents with `P` of documents with `P`. Steps back and forth make none. -/
def Change.Keeps (P : Table Value → Prop) : Change → Prop
  | .write next? => ∀ t u, P t → next? t = some u → P u
  | _ => True

namespace OpenDocument

/-- The definition that is kept is the one that the current document stands for. -/
def IsUpToDate (d : OpenDocument) : Prop := d.preview = buildPreview d.kind d.base d.current

theorem isUpToDate_opened (path : String) (kind : DocumentKind) (base : Option (Table Value))
    (document : Table Value) : (opened path kind base document).IsUpToDate := rfl

theorem isUpToDate_replace (d : OpenDocument) (next : Table Value) :
    (d.replace next).IsUpToDate := rfl

theorem IsUpToDate.replace_replace {d : OpenDocument} (h : d.IsUpToDate) (t : Table Value) :
    (d.replace t).replace d.current = d := by
  unfold replace
  rw [← h]

/-- The same document at another time: it has the same path, kind and base, and its definition is
still up to date. -/
structure SameFile (d d' : OpenDocument) : Prop where
  path_eq : d'.path = d.path
  kind_eq : d'.kind = d.kind
  base_eq : d'.base = d.base
  isUpToDate : d.IsUpToDate → d'.IsUpToDate

namespace SameFile

variable {d d' d'' : OpenDocument}

theorem refl (d : OpenDocument) : d.SameFile d := ⟨rfl, rfl, rfl, id⟩

theorem trans (h : d.SameFile d') (h' : d'.SameFile d'') : d.SameFile d'' :=
  ⟨h'.path_eq.trans h.path_eq, h'.kind_eq.trans h.kind_eq, h'.base_eq.trans h.base_eq,
    h'.isUpToDate ∘ h.isUpToDate⟩

theorem replace (d : OpenDocument) (next : Table Value) : d.SameFile (d.replace next) :=
  ⟨rfl, rfl, rfl, fun _ => d.isUpToDate_replace next⟩

/-- Saving builds nothing: the current document stays. -/
theorem saved (d : OpenDocument) (saved : Table Value) : d.SameFile { d with saved } :=
  ⟨rfl, rfl, rfl, id⟩

end SameFile

end OpenDocument

namespace Session

/-- The current document and all snapshots have `P`. -/
structure AllHold (P : Table Value → Prop) (s : Session) : Prop where
  current : ∀ d, s.document = some d → P d.current
  past : ∀ t ∈ s.history.past, P t
  future : ∀ t ∈ s.history.future, P t

namespace AllHold

variable {P : Table Value → Prop} {s : Session} {d : OpenDocument}

/-- A document that was just opened is all that there is. -/
theorem «open» (s : Session) (path : String) (kind : DocumentKind) (base : Option (Table Value))
    {document : Table Value} (h : P document) : (s.open path kind base document).AllHold P := by
  refine ⟨?_, fun _ ht => absurd ht List.not_mem_nil, fun _ ht => absurd ht List.not_mem_nil⟩
  intro d hd
  rw [← Option.some.inj hd]
  exact h

/-- Another document in place of the current one. -/
theorem of_moves {r : Bool × Session} {history : History (Table Value)} {current : Table Value}
    (hr : Moves d history current r) (hc : P current) (hpast : ∀ t ∈ history.past, P t)
    (hfuture : ∀ t ∈ history.future, P t) : r.2.AllHold P := by
  refine ⟨?_, by rw [hr.history]; exact hpast, by rw [hr.history]; exact hfuture⟩
  intro d' hd'
  rw [hr.document] at hd'
  rw [← Option.some.inj hd']
  exact hc

theorem of_stays {r : Bool × Session} (h : s.AllHold P) (hr : s.Stays r) : r.2.AllHold P := by
  refine ⟨?_, by rw [hr.history]; exact h.past, by rw [hr.history]; exact h.future⟩
  intro d' hd'
  rw [hr.document] at hd'
  exact h.current d' hd'

theorem sameFile_of_moves {r : Bool × Session} {history : History (Table Value)}
    {current : Table Value} (hr : Moves d history current r) :
    ∃ d', r.2.document = some d' ∧ d.SameFile d' :=
  ⟨_, hr.document, .replace d current⟩

theorem sameFile_of_stays {r : Bool × Session} (hd : s.document = some d) (hr : s.Stays r) :
    ∃ d', r.2.document = some d' ∧ d.SameFile d' :=
  ⟨d, hr.document.trans hd, .refl d⟩

/-- A change that succeeds puts a document with `P` in place of the present one. -/
theorem turns (h : s.AllHold P) (hd : s.document = some d) {r : Bool × Session} {change : Change}
    {history : History (Table Value)} {current : Table Value} (hmoves : Moves d history current r)
    (hturns : Turns s.history d.current change history current) (hkeeps : change.Keeps P) :
    r.2.AllHold P := by
  have hcurrent := h.current d hd
  have hpush : ∀ t ∈ (d.current :: s.history.past).take s.history.limit, P t := fun t ht =>
    List.forall_mem_cons.mpr ⟨hcurrent, h.past⟩ t (List.mem_of_mem_take ht)
  have hpast := h.past
  have hfuture := h.future
  cases hturns with
  | write hnext =>
    exact of_moves hmoves (hkeeps _ _ hcurrent hnext) hpush fun _ ht => absurd ht List.not_mem_nil
  | back hundo =>
    rw [hundo, List.forall_mem_cons] at hpast
    exact of_moves hmoves hpast.1 hpast.2 (List.forall_mem_cons.mpr ⟨hcurrent, hfuture⟩)
  | forth hredo =>
    rw [hredo, List.forall_mem_cons] at hfuture
    exact of_moves hmoves hfuture.1 hpush hfuture.2

theorem stay (h : s.AllHold P) (hd : s.document = some d) {r : Bool × Session}
    (hp : s.Performed d r .stay) :
    r.2.AllHold P ∧ ∃ d', r.2.document = some d' ∧ d.SameFile d' := by
  obtain ⟨hh, saved, hs⟩ := hp
  refine ⟨⟨?_, by rw [hh]; exact h.past, by rw [hh]; exact h.future⟩, _, hs, .saved d saved⟩
  intro d' hd'
  rw [hs] at hd'
  rw [← Option.some.inj hd']
  exact h.current d hd

/-- **One operation**: what holds of all documents holds of all documents after it. -/
theorem perform (h : s.AllHold P) (hd : s.document = some d) {x : SessionStep}
    (hx : x.change.Keeps P) :
    (s.perform x).2.AllHold P ∧ ∃ d', (s.perform x).2.document = some d' ∧ d.SameFile d' := by
  have hp := perform_spec hd x
  by_cases hstay : x.change = .stay
  · rw [hstay] at hp
    exact h.stay hd hp
  · rcases hp.stays_or_turns hstay with hstays | ⟨history, current, hmoves, hturns⟩
    · exact ⟨h.of_stays hstays, sameFile_of_stays hd hstays⟩
    · exact ⟨h.turns hd hmoves hturns hx, sameFile_of_moves hmoves⟩

end AllHold

/-- **Runs**: what holds of all documents, and is kept by every operation, holds of all documents
after any number of operations. -/
theorem run_allHold {P : Table Value → Prop} (steps : List SessionStep)
    (hsteps : ∀ x ∈ steps, x.change.Keeps P) :
    ∀ {s : Session} {d : OpenDocument}, s.document = some d → s.AllHold P →
      (s.run steps).AllHold P ∧ ∃ d', (s.run steps).document = some d' ∧ d.SameFile d' := by
  induction steps with
  | nil => exact fun hd h => ⟨h, _, hd, .refl _⟩
  | cons x steps ih =>
    intro s d hd h
    rw [List.forall_mem_cons] at hsteps
    obtain ⟨hall, d', hd', hsame⟩ := h.perform hd hsteps.1
    obtain ⟨hrun, d'', hd'', hsame'⟩ := ih hsteps.2 hd' hall
    exact ⟨hrun, d'', hd'', hsame.trans hsame'⟩

/-- After any operations there is still a document, of the same file. -/
theorem exists_sameFile_run (steps : List SessionStep) {s : Session} {d : OpenDocument}
    (hd : s.document = some d) : ∃ d', (s.run steps).document = some d' ∧ d.SameFile d' := by
  have hkeeps : ∀ x ∈ steps, x.change.Keeps fun _ => True := fun x _ => by
    cases x.change <;> simp [Change.Keeps]
  exact (run_allHold steps hkeeps hd ⟨fun _ _ => trivial, fun _ _ => trivial, fun _ _ => trivial⟩).2

/-- **The definition that is kept is up to date** after a document was opened and any operations
were carried out. -/
theorem run_isUpToDate (s : Session) (path : String) (kind : DocumentKind)
    (base : Option (Table Value)) (document : Table Value) (steps : List SessionStep)
    {d : OpenDocument} (hd : ((s.open path kind base document).run steps).document = some d) :
    d.IsUpToDate := by
  obtain ⟨d', hd', hfile⟩ := exists_sameFile_run steps
    (s := s.open path kind base document) (d := .opened path kind base document) rfl
  obtain rfl : d = d' := Option.some.inj (hd.symm.trans hd')
  exact hfile.isUpToDate (OpenDocument.isUpToDate_opened path kind base document)

end Session

end Bestiary
