import Bestiary.Proofs.Editor.Save

/-!
# What the calls of a session leave behind

Every call of a session that returns leaves one message in the log. A call that fails leaves nothing
else, wherever it gave up: the document, the one that was opened or last saved, and the history are
those from before it. The log holds the latest messages of all calls, in their order.

* `SessionCall` is a call, `Session.outcome?` what it comes to when it returns.
* `Session.Leaves` says what a call that has returned leaves, `Session.leaves_of_outcome?` that
  every call does.
* `Session.afterAll_leaves` says this of all sessions that calls lead to, with what a save has done.
-/

namespace Bestiary

open Data (WellKeyed)

/-- A call of a session: a document opened, or an operation on the one that is open. -/
inductive SessionCall where
  | «open» (path : String) (kind : DocumentKind) (base : Option (Table Value))
    (document : Table Value)
  | step (x : SessionStep)

/-- The values that the call brings in are well-keyed. -/
def SessionCall.IsKeyed : SessionCall → Prop
  | .open _ _ _ document => WellKeyed (.table document)
  | .step x => x.IsKeyed

namespace Session

/-- What a call comes to when it returns: whether it succeeded, and the session after it. A call
that ends in an exception does not return, and validating is no attempt at anything. -/
def outcome? (s : Session) : SessionCall → Option (Bool × Session)
  | .open path kind base document => some (true, s.open path kind base document)
  | .step (.edit label f) => (s.editCatching label f).toOption
  | .step (.editBehavior label f) => (s.editBehaviorCatching label f).toOption
  | .step (.apply op) => some (s.apply op)
  | .step .undo => some s.undo
  | .step .redo => some s.redo
  | .step (.save numeral write) => (Id.run (s.saveCatching numeral write)).toOption
  | .step .validate => none

/-- The session after a call. -/
def after (s : Session) (c : SessionCall) : Session :=
  match s.outcome? c with
  | some (_, now) => now
  | none => s

/-- The session after a list of calls. -/
def afterAll (s : Session) (calls : List SessionCall) : Session := calls.foldl after s

/-- The message that a call leaves, if it returns. -/
def message? (s : Session) (c : SessionCall) : Option Status :=
  (s.outcome? c).bind fun r => r.2.log.last?

/-- The messages that a list of calls leaves. -/
def messages (s : Session) : List SessionCall → List Status
  | [] => []
  | c :: calls => (s.message? c).toList ++ (s.after c).messages calls

@[simp] theorem afterAll_nil (s : Session) : s.afterAll [] = s := rfl

@[simp] theorem afterAll_cons (s : Session) (c : SessionCall) (calls : List SessionCall) :
    s.afterAll (c :: calls) = (s.after c).afterAll calls := rfl

theorem settled_eq (s : Session) (r : Except Escape (Bool × Session)) :
    s.settled r = r.toOption.getD (false, s) := by
  cases r <;> rfl

/-- A call that does not return leaves the session as it was. -/
theorem after_eq (s : Session) (c : SessionCall) :
    s.after c = ((s.outcome? c).getD (false, s)).2 := by
  unfold after
  cases s.outcome? c <;> rfl

/-- An operation after which a run goes on is the call of it. -/
theorem after_step (s : Session) (x : SessionStep) : s.after (.step x) = (s.perform x).2 := by
  rw [after_eq]
  cases x with
  | edit label f => rw [perform, settled_eq, outcome?]
  | editBehavior label f => rw [perform, settled_eq, outcome?]
  | save numeral write => rw [perform, settled_eq, outcome?]
  | _ => rfl

/-! ## One call -/

/-- What a call leaves that has returned: a failure a message and nothing else, a success a message
as well. -/
inductive Leaves (s : Session) : Bool × Session → Prop where
  | failure (level : Level) (message : String) (hlevel : level ≠ .success) :
    s.Leaves (false, s.say level message)
  | success (now : Session) (message : String) (hlog : now.log = s.log) :
    s.Leaves (true, now.say .success message)

variable {s now : Session} {d : OpenDocument}

theorem leaves_fail (s : Session) (message : String) : s.Leaves (s.fail message) :=
  .failure .error message (by decide)

theorem leaves_decline (s : Session) (reason : String) : s.Leaves (s.decline reason) :=
  .failure .warning reason (by decide)

theorem leaves_edited (s : Session) (label : String) (d : OpenDocument)
    (answer : Except String Value) : s.Leaves (s.edited label d answer) := by
  unfold edited
  split
  · exact s.leaves_fail _
  · split
    · exact s.leaves_decline _
    · exact .success _ label rfl
  · exact s.leaves_fail _

theorem leaves_editCatching {label : String} {f : Table Value → Except Thrown Value}
    {r : Bool × Session} (h : s.editCatching label f = .ok r) : s.Leaves r := by
  unfold editCatching at h
  split at h
  · cases h
    exact s.leaves_fail _
  · obtain ⟨answer, -, rfl⟩ := Except.map_eq_ok_iff.mp h
    exact s.leaves_edited label _ answer

theorem leaves_editBehaviorCatching {label : String} {f : Value → Except Thrown Value}
    {r : Bool × Session} (h : s.editBehaviorCatching label f = .ok r) : s.Leaves r := by
  unfold editBehaviorCatching at h
  split at h
  · cases h
    exact s.leaves_fail _
  · exact leaves_editCatching h

theorem leaves_undo (s : Session) : s.Leaves s.undo := by
  unfold undo
  split
  · exact s.leaves_decline _
  · exact .success _ "Undo" rfl

theorem leaves_redo (s : Session) : s.Leaves s.redo := by
  unfold redo
  split
  · exact s.leaves_decline _
  · exact .success _ "Redo" rfl

theorem leaves_written (s : Session) (d : OpenDocument) (answer : Except String Unit) :
    s.Leaves (s.written d answer) := by
  cases answer with
  | error message => exact s.leaves_fail _
  | ok u => exact .success _ _ rfl

theorem leaves_saveCatching {numeral : Number → String}
    {write : (path text : String) → Except Thrown Unit} {r : Bool × Session}
    (h : Id.run (s.saveCatching numeral write) = .ok r) : s.Leaves r := by
  rw [saveCatching_eq] at h
  cases ha : s.attempt numeral with
  | error result =>
    simp only [ha] at h
    rcases attempt_error ha with ⟨e, rfl⟩ | ⟨message, rfl⟩
    · cases h
    · cases h
      exact s.leaves_fail message
  | ok handed =>
    simp only [ha] at h
    obtain ⟨answer, -, rfl⟩ := Except.map_eq_ok_iff.mp h
    exact s.leaves_written handed.1 answer

/-- **Every call that returns** leaves one message, and a failure leaves nothing else. -/
theorem leaves_of_outcome? {c : SessionCall} {r : Bool × Session} (h : s.outcome? c = some r) :
    s.Leaves r := by
  have hreturned {x : Except Escape (Bool × Session)} (h : x.toOption = some r) : x = .ok r := by
    cases x with
    | error e => cases h
    | ok r' => rw [Option.some.inj h]
  unfold outcome? at h
  split at h
  · cases h
    exact .success _ _ rfl
  · exact leaves_editCatching (hreturned h)
  · exact leaves_editBehaviorCatching (hreturned h)
  · rename_i op
    cases h
    cases op with
    | edit e => exact leaves_editBehaviorCatching (s.editBehaviorCatching_error e.label e.run)
    | undo => exact s.leaves_undo
    | redo => exact s.leaves_redo
  · cases h
    exact s.leaves_undo
  · cases h
    exact s.leaves_redo
  · exact leaves_saveCatching (hreturned h)
  · cases h

theorem Leaves.of_false (h : s.Leaves (false, now)) :
    ∃ level message, level ≠ .success ∧ now = s.say level message := by
  cases h with
  | failure level message hlevel => exact ⟨level, message, hlevel, rfl⟩

/-- The message of a call is the latest in the log after it. -/
theorem Leaves.message {r : Bool × Session} (h : s.Leaves r) :
    ∃ e : Status, r.2.log = s.log.push e.level e.message := by
  cases h with
  | failure level message => exact ⟨⟨level, message⟩, rfl⟩
  | success now message hlog => exact ⟨⟨.success, message⟩, by rw [← hlog]; rfl⟩

/-! ## The log after all calls -/

/-- Of the messages `told` so far, the log of the session has the last. -/
def HasTold (s : Session) (told : List Status) : Prop :=
  s.log = ⟨StatusLog.defaultLimit, StatusLog.lastItems StatusLog.defaultLimit told⟩

theorem HasTold.entries_eq {told : List Status} (h : s.HasTold told) :
    s.log.entries = StatusLog.lastItems 50 told := by
  rw [h]
  rfl

theorem hasTold_start (historyLimit : Nat) : (start historyLimit).HasTold [] := rfl

/-- A message more has been told after a call that returns. -/
theorem HasTold.outcome? {told : List Status} (h : s.HasTold told) {c : SessionCall}
    {r : Bool × Session} (hr : s.outcome? c = some r) :
    ∃ e, s.message? c = some e ∧ r.2.HasTold (told ++ [e]) := by
  obtain ⟨e, he⟩ := (leaves_of_outcome? hr).message
  refine ⟨e, ?_, ?_⟩
  · unfold message?
    rw [hr, Option.bind_some, he, h]
    exact StatusLog.last?_push (by decide : 0 < StatusLog.defaultLimit) _ _
  · unfold HasTold
    rw [he, h]
    simp only [StatusLog.push, StatusLog.lastItems_append]

theorem HasTold.after {told : List Status} (h : s.HasTold told) (c : SessionCall) :
    (s.after c).HasTold (told ++ (s.message? c).toList) := by
  cases hr : s.outcome? c with
  | none =>
    rw [Session.after, message?, hr]
    simpa using h
  | some r =>
    obtain ⟨e, hmessage, he⟩ := h.outcome? hr
    rw [Session.after, hmessage, hr]
    exact he

/-- The log of a run has the last of all messages that its calls leave. -/
theorem HasTold.afterAll (calls : List SessionCall) :
    ∀ {s : Session} {told : List Status}, s.HasTold told →
      (s.afterAll calls).HasTold (told ++ s.messages calls) := by
  induction calls with
  | nil =>
    intro s told h
    rw [messages, List.append_nil]
    exact h
  | cons c calls ih =>
    intro s told h
    rw [messages, ← List.append_assoc]
    exact ih (h.after c)

/-! ## Documents of a session that calls lead to -/

/-- Without a document there is nothing that an operation could change. -/
theorem perform_of_document_eq_none (h : s.document = none) (x : SessionStep) :
    (s.perform x).2.document = none ∧ (s.perform x).2.history = s.history := by
  have hedit (label : String) (f : Table Value → Except Thrown Value) :
      (s.settled (s.editCatching label f)).2.document = none ∧
        (s.settled (s.editCatching label f)).2.history = s.history := by
    rw [editCatching, h]
    exact ⟨h, rfl⟩
  have hbehavior (label : String) (f : Value → Except Thrown Value) :
      (s.settled (s.editBehaviorCatching label f)).2.document = none ∧
        (s.settled (s.editBehaviorCatching label f)).2.history = s.history := by
    rw [editBehaviorCatching, lacksBehavior, h]
    exact hedit label _
  have hundo : s.undo.2.document = none ∧ s.undo.2.history = s.history := by
    rw [undo, h]
    exact ⟨h, rfl⟩
  have hredo : s.redo.2.document = none ∧ s.redo.2.history = s.history := by
    rw [redo, h]
    exact ⟨h, rfl⟩
  cases x with
  | edit label f => exact hedit label f
  | editBehavior label f => exact hbehavior label f
  | apply op =>
    cases op with
    | edit e =>
      have hscripted := hbehavior e.label fun v => (e.run v).mapError .error
      rw [settled_editBehavior] at hscripted
      exact hscripted
    | undo => exact hundo
    | redo => exact hredo
  | undo => exact hundo
  | redo => exact hredo
  | save numeral write =>
    rw [perform, saveCatching, attempt, h]
    exact ⟨h, rfl⟩
  | validate => exact ⟨h, rfl⟩

/-- A call that brings in well-keyed values leaves all documents well-keyed. -/
theorem AllHold.after (h : s.AllHold fun t => WellKeyed (.table t)) {c : SessionCall}
    (hc : c.IsKeyed) : (s.after c).AllHold fun t => WellKeyed (.table t) := by
  cases c with
  | «open» path kind base document => exact .open s path kind base hc
  | step x =>
    rw [after_step]
    cases hd : s.document with
    | none =>
      obtain ⟨hdocument, hhistory⟩ := perform_of_document_eq_none hd x
      refine ⟨fun d hd => ?_, hhistory ▸ h.past, hhistory ▸ h.future⟩
      rw [hdocument] at hd
      cases hd
    | some d => exact (h.perform hd (keeps_wellKeyed hc)).1

theorem afterAll_wellKeyed (historyLimit : Nat) (calls : List SessionCall)
    (hcalls : ∀ c ∈ calls, c.IsKeyed) :
    ((start historyLimit).afterAll calls).AllHold fun t => WellKeyed (.table t) := by
  refine List.foldlRecOn calls after ?_ fun s hs c hc => hs.after (hcalls c hc)
  refine ⟨fun d hd => ?_, fun _ ht => absurd ht List.not_mem_nil,
    fun _ ht => absurd ht List.not_mem_nil⟩
  cases hd

/-! ## What a save has done -/

/-- An account of a save with a writer that has a state: what comes of it, and which texts the
writer was handed. -/
structure SaveAccount {σ : Type} (s : Session) (numeral : Number → String)
    (write : (path text : String) → StateM σ (Except Thrown Unit)) (state : σ) : Prop where
  /-- It is the call of a save with the answer that the writer gives in its state. -/
  call : s.outcome? (.step (.save numeral fun path text => ((write path text).run state).1)) =
    (s.saveRecorded numeral write state).1.toOption
  /-- The writer is called at most once. -/
  once : (s.saveRecorded numeral write state).2.length ≤ 1
  /-- It is only called for a valid document. -/
  valid : (s.saveRecorded numeral write state).2 ≠ [] → ∃ v, s.validate = .ok v ∧ v.isValid = true
  /-- The save succeeds iff the writer was called and has written the text. -/
  succeeds_iff : (∃ now, (s.saveRecorded numeral write state).1 = .ok (true, now)) ↔
    ∃ d text, s.document = some d ∧ (s.saveRecorded numeral write state).2 = [text] ∧
      ((write d.path text).run state).1 = .ok ()
  /-- Then the document that was last saved is the present one, and apart from the message nothing
  else is new. -/
  success : ∀ now, (s.saveRecorded numeral write state).1 = .ok (true, now) →
    now.isModified = false ∧ ∃ d message, s.document = some d ∧
      now = { s with document := some { d with saved := d.current } }.say .success message

/-- A save whose writer was called succeeds iff the writer has written the text. -/
theorem caught_written_eq_iff {answer : Except Thrown Unit} :
    (caught answer).map (s.written d) = .ok (true, now) ↔ answer = .ok () ∧
      now = { s with document := some { d with saved := d.current } }.say .success
        s!"Saved {d.path}" := by
  cases answer with
  | error e => cases h : e.message? <;> simp [caught, h, Except.map, written, fail]
  | ok u => simp [caught, Except.map, written, eq_comm]

/-- **What a save has done** to a document without a key twice. -/
theorem saveAccount {σ : Type} (hkeyed : ∀ d, s.document = some d → WellKeyed (.table d.current))
    (numeral : Number → String) (write : (path text : String) → StateM σ (Except Thrown Unit))
    (state : σ) : s.SaveAccount numeral write state := by
  have hcall : s.outcome? (.step (.save numeral fun path text => ((write path text).run state).1)) =
      (s.saveRecorded numeral write state).1.toOption := by
    rw [saveRecorded_eq, outcome?, saveCatching_eq]
    cases s.attempt numeral <;> rfl
  cases ha : s.attempt numeral with
  | error result =>
    have heq : s.saveRecorded numeral write state = (result.mapError .verdict, []) := by
      rw [saveRecorded_eq, ha]
    have hfails : ∀ now, (s.saveRecorded numeral write state).1 ≠ .ok (true, now) := by
      intro now hnow
      rw [heq] at hnow
      rcases attempt_error ha with ⟨e, rfl⟩ | ⟨message, rfl⟩ <;>
        simp [fail, Except.mapError] at hnow
    refine ⟨hcall, ?_, fun h => ?_, ?_, fun now hnow => absurd hnow (hfails now)⟩
    · rw [heq]
      exact Nat.zero_le 1
    · rw [heq] at h
      exact absurd rfl h
    · constructor
      · rintro ⟨now, hnow⟩
        exact absurd hnow (hfails now)
      · rintro ⟨d, text, -, htext, -⟩
        rw [heq] at htext
        cases htext
  | ok handed =>
    obtain ⟨d, text⟩ := handed
    obtain ⟨hd, hvalid, -⟩ := attempt_eq_ok_iff.mp ha
    have heq : s.saveRecorded numeral write state =
        ((caught ((write d.path text).run state).1).map (s.written d), [text]) := by
      rw [saveRecorded_eq, ha]
    refine ⟨hcall, ?_, fun _ => hvalid, ?_, fun now hnow => ?_⟩
    · rw [heq]
      exact Nat.le_refl 1
    · rw [heq]
      constructor
      · rintro ⟨now, hnow⟩
        exact ⟨d, text, hd, rfl, (caught_written_eq_iff.mp hnow).1⟩
      · rintro ⟨d', text', hd', htext, hanswer⟩
        obtain rfl : d = d' := Option.some.inj (hd.symm.trans hd')
        obtain rfl : text = text' := List.singleton_inj.mp htext
        exact ⟨_, caught_written_eq_iff.mpr ⟨hanswer, rfl⟩⟩
    · rw [heq] at hnow
      obtain ⟨-, rfl⟩ := caught_written_eq_iff.mp hnow
      refine ⟨?_, d, _, hd, rfl⟩
      simp [isModified, say, OpenDocument.isModified, Value.same_refl (hkeyed d hd)]

/-! ## All calls -/

/-- **Calls leave one message, and failures leave nothing else.** Of every session that calls lead
to: a call that fails gives the same session with a message more; a call of the writer is made at
most once by a save and only for a valid document, and decides whether the save succeeds; a call
that returns adds one message; and the log has the last fifty messages of all calls. -/
theorem afterAll_leaves (historyLimit : Nat) (calls : List SessionCall)
    (hcalls : ∀ c ∈ calls, c.IsKeyed) :
    let s := (start historyLimit).afterAll calls
    (∀ c now, s.outcome? c = some (false, now) →
      ∃ level message, level ≠ .success ∧ now = s.say level message) ∧
    (∀ (σ : Type) (numeral : Number → String)
      (write : (path text : String) → StateM σ (Except Thrown Unit)) (state : σ),
      s.SaveAccount numeral write state) ∧
    (∀ c r, s.outcome? c = some r →
      ∃ e, s.message? c = some e ∧
        r.2.log.entries = StatusLog.lastItems 50 (s.log.entries ++ [e])) ∧
    s.log.entries = StatusLog.lastItems 50 ((start historyLimit).messages calls) := by
  intro s
  have hkeyed := afterAll_wellKeyed historyLimit calls hcalls
  have htold : s.HasTold ([] ++ (start historyLimit).messages calls) :=
    HasTold.afterAll calls (hasTold_start historyLimit)
  rw [List.nil_append] at htold
  refine ⟨fun c now h => (leaves_of_outcome? h).of_false,
    fun σ numeral write state => saveAccount hkeyed.current numeral write state, fun c r hr => ?_,
    htold.entries_eq⟩
  obtain ⟨e, hmessage, he⟩ := htold.outcome? hr
  refine ⟨e, hmessage, ?_⟩
  rw [he.entries_eq, htold.entries_eq, StatusLog.lastItems_append]

/-- A small mob, opened with nothing to undo: an edit that fails leaves a message, and a save with a
writer that counts its calls is made. -/
theorem afterAll_leaves_moon :
    let write (_ _ : String) : StateM Nat (Except Thrown Unit) := do
      modify (· + 1)
      pure (.ok ())
    let calls : List SessionCall :=
      [.open "mobs/moon.mob" .mob none [("name", .text "moon")], .step .undo]
    let boom : SessionCall := .step (.edit "Explode" fun _ => .error (.error "boom"))
    let s := (start 5).afterAll calls
    (∀ c ∈ calls, c.IsKeyed) ∧
      (∃ now, s.outcome? boom = some (false, now) ∧
        ∃ level message, level ≠ .success ∧ now = s.say level message) ∧
      (∃ now texts, s.saveRecorded Toml.numberText write 0 = (.ok (true, now), texts) ∧
        texts.length ≤ 1 ∧ now.isModified = false) ∧
      s.log.entries =
        [⟨.success, "Opened mobs/moon.mob"⟩, ⟨.warning, "Nothing to undo"⟩] := by
  intro write calls boom s
  have hcalls : ∀ c ∈ calls, c.IsKeyed := by
    rw [List.forall_mem_cons, List.forall_mem_singleton]
    refine ⟨?_, trivial⟩
    simp [SessionCall.IsKeyed, WellKeyed, Data.EntriesWellKeyed, Table.keys]
  obtain ⟨hfails, hsave, -, hlog⟩ := afterAll_leaves 5 calls hcalls
  have hsaved : ∃ now texts, s.saveRecorded Toml.numberText write 0 = (.ok (true, now), texts) :=
    ⟨_, _, rfl⟩
  obtain ⟨now, texts, hnow⟩ := hsaved
  have haccount := hsave Nat Toml.numberText write 0
  refine ⟨hcalls, ⟨_, rfl, hfails boom _ rfl⟩, ⟨now, texts, hnow, ?_, ?_⟩, hlog.trans rfl⟩
  · have honce := haccount.once
    rwa [hnow] at honce
  · exact (haccount.success now (congrArg Prod.fst hnow)).1

end Session

end Bestiary
