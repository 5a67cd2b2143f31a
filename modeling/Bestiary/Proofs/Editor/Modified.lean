import Bestiary.Proofs.Editor.Messages
import Mathlib.Data.List.Chain

/-!
# When a document counts as modified

A session compares its document with the one that was opened or last saved, and it never records a
snapshot that is the same as the next one. So a document counts as modified exactly when it differs
from the one that was opened or saved last, whatever was done and undone in between, and no edit,
undo or redo that succeeds leaves the document as it was.

* `Session.marks` are the documents that calls open and save.
* `Turns.differ`: a change that succeeds leaves a document that differs.
* `Session.Tracks` is the invariant: the document to compare with is the last one marked, and
  documents next to each other in the history differ. `Tracks.after` says that every call keeps it,
  `Tracks.afterAll` that every run of calls does.
* `Session.afterAll_modified` is what it means.
-/

namespace Bestiary

open Data (WellKeyed)

/-- Neither document is the same as the other. -/
def Differ (t u : Table Value) : Prop :=
  Value.same (.table t) (.table u) = false ∧ Value.same (.table u) (.table t) = false

theorem Differ.symm {t u : Table Value} (h : Differ t u) : Differ u t := ⟨h.2, h.1⟩

/-- Of documents without a key twice, it is enough that one is not the same as the other. -/
theorem differ_of_same_eq_false {t u : Table Value} (ht : WellKeyed (.table t))
    (hu : WellKeyed (.table u)) (h : Value.same (.table t) (.table u) = false) : Differ t u := by
  refine ⟨h, Bool.eq_false_iff.mpr fun h' => ?_⟩
  rw [Value.same_symm hu ht h'] at h
  cases h

/-! ## Modified fields -/

/-- **A document is modified iff one of its fields is**, where the fields are the keys of the
document and of the one that it is compared with. -/
theorem OpenDocument.isModified_iff {d : OpenDocument} (hcurrent : WellKeyed (.table d.current))
    (hsaved : WellKeyed (.table d.saved)) :
    d.isModified = true ↔
      ∃ field ∈ d.current.keys ++ d.saved.keys, d.isFieldModified field = true := by
  have hsame := Value.same_table_iff_agree (Data.wellKeyed_table_iff.mp hcurrent).1
    (Data.wellKeyed_table_iff.mp hsaved).1
  unfold isModified isFieldModified
  simp only [Bool.not_eq_true', ← Bool.not_eq_true, hsame, not_forall]
  refine exists_congr fun field => (and_iff_right_of_imp fun hne => ?_).symm
  -- Under a key that neither document has, both have nothing.
  by_contra hkey
  rw [List.mem_append, not_or, ← Table.get?_eq_none_iff, ← Table.get?_eq_none_iff] at hkey
  rw [hkey.1, hkey.2] at hne
  exact hne rfl

/-! ## Successful changes -/

/-- Documents next to each other in time differ, from the present one back and forth. -/
structure NeighboursDiffer (history : History (Table Value)) (current : Table Value) : Prop where
  past : (current :: history.past).IsChain Differ
  future : (current :: history.future).IsChain Differ

/-- **A change that succeeds puts a document that differs in place of the present one**, and
neighbours differ as before, if edits make documents that differ. -/
theorem Turns.differ {history history' : History (Table Value)} {current current' : Table Value}
    {change : Change} (h : Turns history current change history' current')
    (hneighbours : NeighboursDiffer history current)
    (hwrite : ∀ next?, change = .write next? → ∀ next, next? current = some next →
      Differ next current) :
    Differ current' current ∧ NeighboursDiffer history' current' := by
  obtain ⟨hpast, hfuture⟩ := hneighbours
  cases h with
  | write hnext =>
    have hdiffer := hwrite _ rfl _ hnext
    -- Dropping the oldest snapshots leaves the front of the chain.
    exact ⟨hdiffer, (hpast.cons_cons hdiffer).take (history.limit + 1), .singleton _⟩
  | back hundo =>
    rw [hundo] at hpast
    obtain ⟨hdiffer, hpast⟩ := List.isChain_cons_cons.mp hpast
    exact ⟨hdiffer.symm, hpast, hfuture.cons_cons hdiffer.symm⟩
  | forth hredo =>
    rw [hredo] at hfuture
    obtain ⟨hdiffer, hfuture⟩ := List.isChain_cons_cons.mp hfuture
    exact ⟨hdiffer.symm, (hpast.cons_cons hdiffer.symm).take (history.limit + 1), hfuture⟩

/-- An edit does not make a document that is the same. -/
theorem SessionStep.same_eq_false {x : SessionStep} {next? : Table Value → Option (Table Value)}
    (hx : x.change = .write next?) {t u : Table Value} (h : next? t = some u) :
    Value.same (.table u) (.table t) = false := by
  have hedited {ε : Type} (f : Table Value → Except ε Value) (h : edited? f t = some u) :
      Value.same (.table u) (.table t) = false := by
    unfold edited? at h
    grind
  have hbehavior {ε : Type} (f : Value → Except ε Value) (h : behaviorEdited? f t = some u) :
      Value.same (.table u) (.table t) = false := by
    unfold behaviorEdited? at h
    grind
  cases x with
  | edit label f =>
    cases hx
    exact hedited f h
  | editBehavior label f =>
    cases hx
    exact hbehavior f h
  | apply op =>
    cases op with
    | edit e =>
      cases hx
      exact hbehavior e.run h
    | undo => cases hx
    | redo => cases hx
  | _ => cases hx

namespace Session

variable {s now : Session} {d : OpenDocument} {x : SessionStep}

/-! ## The document to compare with -/

/-- The document that a call marks as not modified: the one that it opens, or the present one if it
saves it. -/
def mark? (s : Session) : SessionCall → Option (Table Value)
  | .open _ _ _ document => some document
  | .step (.save numeral write) =>
    match s.outcome? (.step (.save numeral write)) with
    | some (true, _) => s.document.map (·.current)
    | _ => none
  | .step _ => none

/-- The documents that a list of calls marks, in their order. -/
def marks (s : Session) : List SessionCall → List (Table Value)
  | [] => []
  | c :: calls => (s.mark? c).toList ++ (s.after c).marks calls

/-- **A save leaves the document, or marks it.** -/
theorem after_save (hd : s.document = some d) (numeral : Number → String)
    (write : (path text : String) → Except Thrown Unit) :
    let c : SessionCall := .step (.save numeral write)
    (s.after c).history = s.history ∧
      (s.mark? c = none ∧ (s.after c).document = some d ∨
        s.mark? c = some d.current ∧
          (s.after c).document = some { d with saved := d.current }) := by
  intro c
  cases ha : s.attempt numeral with
  | error result =>
    have hsave : Id.run (s.saveCatching numeral write) = result.mapError .verdict := by
      rw [saveCatching_eq, ha]
      rfl
    rcases attempt_error ha with ⟨e, rfl⟩ | ⟨message, rfl⟩ <;>
      simp only [c, mark?, after, outcome?, hsave] <;> exact ⟨rfl, .inl ⟨rfl, hd⟩⟩
  | ok handed =>
    obtain ⟨d', text⟩ := handed
    obtain rfl : d = d' := Option.some.inj (hd.symm.trans (attempt_eq_ok_iff.mp ha).1)
    have hsave : Id.run (s.saveCatching numeral write) =
        (caught (write d.path text)).map (s.written d) := by
      rw [saveCatching_eq, ha]
      rfl
    simp only [c, mark?, after, outcome?, hsave]
    cases write d.path text with
    | error e =>
      simp only [caught]
      cases e.message? <;> exact ⟨rfl, .inl ⟨rfl, hd⟩⟩
    | ok u => exact ⟨rfl, .inr ⟨by rw [hd]; rfl, rfl⟩⟩

/-- Operations that may change the document mark nothing. -/
theorem mark?_step (hx : x.change ≠ .stay) : s.mark? (.step x) = none := by
  cases x with
  | save numeral write => exact absurd rfl hx
  | _ => rfl

/-- A call that returns is the operation. -/
theorem perform_of_outcome? {r : Bool × Session} (h : s.outcome? (.step x) = some r) :
    s.perform x = r := by
  cases x with
  | edit label f => rw [perform, settled_eq, ← outcome?, h, Option.getD_some]
  | editBehavior label f => rw [perform, settled_eq, ← outcome?, h, Option.getD_some]
  | save numeral write => rw [perform, settled_eq, ← outcome?, h, Option.getD_some]
  | validate => cases h
  | _ => exact Option.some.inj h

/-! ## The invariant -/

/-- What is known of an open document and its history after calls that have marked these
documents. -/
structure OnTrack (marked : List (Table Value)) (history : History (Table Value))
    (d : OpenDocument) : Prop where
  /-- The document to compare with is the last one marked. -/
  getLast?_eq : marked.getLast? = some d.saved
  saved : WellKeyed (.table d.saved)
  neighbours : NeighboursDiffer history d.current

/-- What is known of a session after calls that have marked these documents. -/
structure Tracks (s : Session) (marked : List (Table Value)) : Prop where
  keyed : s.AllHold fun t => WellKeyed (.table t)
  onTrack : ∀ d, s.document = some d → OnTrack marked s.history d

namespace Tracks

variable {marked : List (Table Value)}

theorem start (historyLimit : Nat) : (start historyLimit).Tracks [] :=
  ⟨afterAll_wellKeyed historyLimit [] fun _ hc => absurd hc List.not_mem_nil,
    fun d hd => absurd hd (by simp [Session.start])⟩

/-- An edit, an undo or a redo that succeeds leaves a document that differs from the one before. -/
theorem differ (h : s.Tracks marked) (hd : s.document = some d) (hx : x.IsKeyed)
    {history : History (Table Value)} {current : Table Value}
    (hturns : Turns s.history d.current x.change history current) :
    Differ current d.current ∧ NeighboursDiffer history current := by
  refine hturns.differ (h.onTrack d hd).neighbours fun next? hchange next hnext => ?_
  have hcurrent := h.keyed.current d hd
  have hkeeps := keeps_wellKeyed hx
  rw [hchange] at hkeeps
  exact differ_of_same_eq_false (hkeeps _ _ hcurrent hnext) hcurrent
    (SessionStep.same_eq_false hchange hnext)

/-- An operation that may change the document compares with the same one as before. -/
theorem perform (h : s.Tracks marked) (hd : s.document = some d) (hx : x.IsKeyed)
    (hstay : x.change ≠ .stay) {d' : OpenDocument} (hd' : (s.perform x).2.document = some d') :
    OnTrack marked (s.perform x).2.history d' := by
  have htrack := h.onTrack d hd
  rcases (perform_spec hd x).stays_or_turns hstay with
    hstays | ⟨history, current, hmoves, hturns⟩
  · rw [hstays.document, hd] at hd'
    obtain rfl := Option.some.inj hd'
    rw [hstays.history]
    exact htrack
  · rw [hmoves.document] at hd'
    obtain rfl := Option.some.inj hd'
    rw [hmoves.history]
    exact ⟨htrack.getLast?_eq, htrack.saved, (h.differ hd hx hturns).2⟩

/-- A save compares with what it has saved from then on. -/
theorem save (h : s.Tracks marked) (hd : s.document = some d)
    (numeral : Number → String) (write : (path text : String) → Except Thrown Unit)
    {d' : OpenDocument} :
    let c : SessionCall := .step (.save numeral write)
    (s.after c).document = some d' →
      OnTrack (marked ++ (s.mark? c).toList) (s.after c).history d' := by
  intro c hd'
  have htrack := h.onTrack d hd
  obtain ⟨hhistory, ⟨hmark, hdocument⟩ | ⟨hmark, hdocument⟩⟩ := after_save hd numeral write
  · obtain rfl := Option.some.inj (hdocument.symm.trans hd')
    rw [hhistory, hmark, Option.toList_none, List.append_nil]
    exact htrack
  · obtain rfl := Option.some.inj (hdocument.symm.trans hd')
    rw [hhistory, hmark]
    exact ⟨List.getLast?_concat, h.keyed.current d hd, htrack.neighbours⟩

/-- **Every call keeps track.** -/
theorem after (h : s.Tracks marked) {c : SessionCall} (hc : c.IsKeyed) :
    (s.after c).Tracks (marked ++ (s.mark? c).toList) := by
  refine ⟨h.keyed.after hc, fun d' hd' => ?_⟩
  cases c with
  | «open» path kind base document =>
    obtain rfl := Option.some.inj hd'
    exact ⟨List.getLast?_concat, hc, .singleton _, .singleton _⟩
  | step x =>
    cases hd : s.document with
    | none =>
      rw [after_step, (perform_of_document_eq_none hd x).1] at hd'
      cases hd'
    | some d =>
      by_cases hstay : x.change = .stay
      · cases x with
        | save numeral write => exact h.save hd numeral write hd'
        | validate =>
          have hmark : s.mark? (.step .validate) = none := rfl
          rw [hmark, Option.toList_none, List.append_nil]
          exact h.onTrack d' hd'
        | apply op => cases op <;> cases hstay
        | _ => cases hstay
      · rw [mark?_step hstay, Option.toList_none, List.append_nil]
        rw [after_step] at hd' ⊢
        exact h.perform hd hc hstay hd'

/-- **Every run of calls keeps track.** -/
theorem afterAll (calls : List SessionCall) (hcalls : ∀ c ∈ calls, c.IsKeyed) :
    ∀ {s : Session} {marked : List (Table Value)}, s.Tracks marked →
      (s.afterAll calls).Tracks (marked ++ s.marks calls) := by
  induction calls with
  | nil =>
    intro s marked h
    rw [marks, List.append_nil]
    exact h
  | cons c calls ih =>
    intro s marked h
    rw [List.forall_mem_cons] at hcalls
    rw [marks, ← List.append_assoc]
    exact ih hcalls.2 (h.after hcalls.1)

end Tracks

/-- **A document counts as modified exactly when it is.** Whatever was called, the document is not
modified iff it is the same as the one that was opened or successfully saved last; it is modified
iff one of its fields is, where the fields are the keys of both documents; and every edit, undo or
redo that succeeds leaves a document that is not the same as the one before. -/
theorem afterAll_modified (historyLimit : Nat) (calls : List SessionCall)
    (hcalls : ∀ c ∈ calls, c.IsKeyed) :
    let s := (Session.start historyLimit).afterAll calls
    ∀ d, s.document = some d →
      ∃ mark, ((Session.start historyLimit).marks calls).getLast? = some mark ∧
        (s.isModified = false ↔ Value.same (.table d.current) (.table mark) = true) ∧
        (s.isModified = true ↔
          ∃ field ∈ d.current.keys ++ mark.keys, s.isFieldModified field = true) ∧
        ∀ x now, x.IsKeyed → (∀ numeral write, x ≠ .save numeral write) →
          s.outcome? (.step x) = some (true, now) →
          ∃ d', now.document = some d' ∧
            Value.same (.table d'.current) (.table d.current) = false := by
  intro s d hd
  have htracks : s.Tracks ((Session.start historyLimit).marks calls) :=
    Tracks.afterAll calls hcalls (.start historyLimit)
  have hmodified : s.isModified = d.isModified := by rw [isModified, hd, Option.any_some]
  have htrack := htracks.onTrack d hd
  refine ⟨d.saved, htrack.getLast?_eq, ?_, ?_, fun x now hx hsave hout => ?_⟩
  · rw [hmodified, OpenDocument.isModified, Bool.not_eq_false']
  · rw [hmodified, OpenDocument.isModified_iff (htracks.keyed.current d hd) htrack.saved]
    simp only [isFieldModified, hd, Option.any_some]
  · have hstay : x.change ≠ .stay := by
      cases x with
      | save numeral write => exact absurd rfl (hsave numeral write)
      | validate => cases hout
      | apply op => cases op <;> exact fun h => by cases h
      | _ => exact fun h => by cases h
    have hperform : s.perform x = (true, now) := perform_of_outcome? hout
    have hspec := perform_spec hd x
    rw [hperform] at hspec
    rcases hspec.stays_or_turns hstay with hstays | ⟨history, current, hmoves, hturns⟩
    · exact absurd hstays.fails (by simp)
    · exact ⟨_, hmoves.document, (htracks.differ hd hx hturns).1.1⟩

/-- A small mob that was renamed and saved, and the renaming undone: it is modified, and redoing the
renaming changes it. -/
theorem afterAll_modified_moon :
    let rename : SessionStep := .edit "Rename" fun t => .ok (.table (t.set "name" (.text "sun")))
    let calls : List SessionCall :=
      [.open "mobs/moon.mob" .mob none [("name", .text "moon")], .step rename,
        .step (.save Toml.numberText fun _ _ => .ok ()), .step .undo]
    let s := (Session.start 5).afterAll calls
    (∀ c ∈ calls, c.IsKeyed) ∧
      ((Session.start 5).marks calls).getLast? = some [("name", .text "sun")] ∧
      s.isModified = true ∧
      ∃ d d' now, s.document = some d ∧ s.outcome? (.step .redo) = some (true, now) ∧
        now.document = some d' ∧ Value.same (.table d'.current) (.table d.current) = false := by
  intro rename calls s
  have hcalls : ∀ c ∈ calls, c.IsKeyed := by
    simp only [calls, List.forall_mem_cons]
    refine ⟨?_, fun t v ht hv => ?_, trivial, trivial, fun _ hc => absurd hc List.not_mem_nil⟩
    · simp [SessionCall.IsKeyed, WellKeyed, Data.EntriesWellKeyed, Table.keys]
    · cases hv
      exact ht.set (d := .text "sun") trivial "name"
  have hmarks : ((Session.start 5).marks calls).getLast? = some [("name", .text "sun")] := rfl
  have hopen : ∃ d, s.document = some d := ⟨_, rfl⟩
  obtain ⟨d, hd⟩ := hopen
  obtain ⟨mark, hmark, -, hfields, hsteps⟩ := afterAll_modified 5 calls hcalls d hd
  obtain rfl := Option.some.inj (hmarks.symm.trans hmark)
  have hredo : ∃ now, s.outcome? (.step .redo) = some (true, now) := ⟨_, rfl⟩
  obtain ⟨now, hnow⟩ := hredo
  obtain ⟨d', hd', hdiffer⟩ := hsteps .redo now trivial (fun _ _ => by simp) hnow
  refine ⟨hcalls, hmarks, hfields.mpr ⟨"name", ?_, ?_⟩, d, d', now, hd, hnow, hd', hdiffer⟩
  · exact List.mem_append_right _ List.mem_cons_self
  · decide

end Session

end Bestiary
