import Bestiary.Editor.EditOp

/-!
# Runs of a session

The operations on an open document as data, so that statements can speak of every sequence of
them. What an operation makes of the document alone, without history and log, is its `Change`: a
document in place of the present one, a step back or forth, or nothing.

* `Session.perform` carries an operation out, `Session.run` a list of them.
* `Session.perform_spec` says once what an operation can do: it is its `Change`.
* `Turns` is what a change that succeeds does to the document and its history.
-/

namespace Bestiary

/-- An operation on an open document. The functions stand for whatever a caller passes, and
`numeral` for how numbers are written. -/
inductive SessionStep where
  | edit (label : String) (f : Table Value → Except Thrown Value)
  | editBehavior (label : String) (f : Value → Except Thrown Value)
  | apply (op : EditOp)
  | undo
  | redo
  | save (numeral : Number → String) (write : (path text : String) → Except Thrown Unit)
  | validate

namespace Session

/-- What an operation leaves. Where an exception leaves the operation, the session stays as it
was. -/
def settled (s : Session) : Except Escape (Bool × Session) → Bool × Session
  | .ok r => r
  | .error _ => (false, s)

/-- The session after an operation, and whether the operation succeeded. An operation that only
looks leaves the session as it was. -/
def perform (s : Session) : SessionStep → Bool × Session
  | .edit label f => s.settled (s.editCatching label f)
  | .editBehavior label f => s.settled (s.editBehaviorCatching label f)
  | .apply op => s.apply op
  | .undo => s.undo
  | .redo => s.redo
  | .save numeral write => s.settled (Id.run (s.saveCatching numeral write))
  | .validate => (false, s)

/-- The session after a list of operations. -/
def run (s : Session) (steps : List SessionStep) : Session :=
  steps.foldl (fun s x => (s.perform x).2) s

@[simp] theorem run_nil (s : Session) : s.run [] = s := rfl

@[simp] theorem run_cons (s : Session) (x : SessionStep) (steps : List SessionStep) :
    s.run (x :: steps) = (s.perform x).2.run steps := rfl

end Session

/-! ## What an operation does to the document -/

variable {ε : Type}

/-- The document that an edit makes of `d`, if it succeeds and changes anything. -/
def edited? (f : Table Value → Except ε Value) (d : Table Value) : Option (Table Value) :=
  match f d with
  | .ok (.table next) => if Value.same (.table next) (.table d) then none else some next
  | _ => none

/-- The document that an edit of its behavior tree makes of `d`, if it succeeds and changes
anything. -/
def behaviorEdited? (f : Value → Except ε Value) (d : Table Value) : Option (Table Value) :=
  match d.get? "behavior" with
  | none => none
  | some tree =>
    match f tree with
    | .ok tree =>
      let next := d.set "behavior" tree
      if Value.same (.table next) (.table d) then none else some next
    | .error _ => none

/-- What an operation means for the document: another document in place of the present one, if
there is any, a step back or forth in time, or nothing. -/
inductive Change where
  | write (next? : Table Value → Option (Table Value))
  | back
  | forth
  | stay

/-- The edit of a tree that a scripted edit asks for. -/
def TreeEdit.run (e : TreeEdit Loose) (root : Value) : Except String Value :=
  e.narrow.map (·.apply root)

/-- What an operation means for the document. -/
def SessionStep.change : SessionStep → Change
  | .edit _ f => .write (edited? f)
  | .editBehavior _ f => .write (behaviorEdited? f)
  | .apply (.edit e) => .write (behaviorEdited? e.run)
  | .apply .undo => .back
  | .apply .redo => .forth
  | .undo => .back
  | .redo => .forth
  | .save _ _ => .stay
  | .validate => .stay

namespace Session

/-- The outcome of an operation that fails and leaves the document and its history. -/
structure Stays (s : Session) (r : Bool × Session) : Prop where
  fails : r.1 = false
  history : r.2.history = s.history
  document : r.2.document = s.document

/-- The outcome of an operation that succeeds and puts another document in place of that of `d`. -/
structure Moves (d : OpenDocument) (history : History (Table Value)) (current : Table Value)
    (r : Bool × Session) : Prop where
  succeeds : r.1 = true
  history : r.2.history = history
  document : r.2.document = some (d.replace current)

variable {s : Session} {d : OpenDocument}

/-- **An edit puts what it makes of the document in its place**, or leaves it. -/
theorem edit_spec (hd : s.document = some d) (label : String)
    (f : Table Value → Except Thrown Value) :
    match edited? f d.current with
    | none => s.Stays (s.settled (s.editCatching label f))
    | some next =>
      Moves d (s.history.push d.current) next (s.settled (s.editCatching label f)) := by
  unfold editCatching edited?
  rw [hd]
  simp only
  cases f d.current with
  | error e =>
    simp only [caught]
    cases e.message? <;> exact ⟨rfl, rfl, rfl⟩
  | ok v =>
    cases v with
    | table next =>
      simp only [caught, Except.map, settled, edited]
      by_cases hsame : Value.same (.table next) (.table d.current) = true
      · rw [if_pos hsame, if_pos hsame]
        exact ⟨rfl, rfl, rfl⟩
      · rw [if_neg hsame, if_neg hsame]
        exact ⟨rfl, rfl, rfl⟩
    | _ => exact ⟨rfl, rfl, rfl⟩

/-- The edit of a whole document that an edit of its behavior tree is. -/
theorem edited?_onBehavior (f : Value → Except ε Value) {t : Table Value} {tree : Value}
    (ht : t.get? "behavior" = some tree) : edited? (onBehavior f) t = behaviorEdited? f t := by
  unfold edited? behaviorEdited? onBehavior
  simp only [ht]
  cases f tree <;> rfl

/-- **An edit of the behavior tree is one of the document** that has a tree, and fails on any
other. -/
theorem editBehavior_spec (hd : s.document = some d) (label : String)
    (f : Value → Except Thrown Value) :
    match behaviorEdited? f d.current with
    | none => s.Stays (s.settled (s.editBehaviorCatching label f))
    | some next =>
      Moves d (s.history.push d.current) next (s.settled (s.editBehaviorCatching label f)) := by
  unfold editBehaviorCatching lacksBehavior
  simp only [hd, Option.any_some]
  cases ht : d.current.get? "behavior" with
  | none =>
    have hnone : behaviorEdited? f d.current = none := by
      unfold behaviorEdited?
      rw [ht]
    rw [if_pos (by simp [Table.has, ht]), hnone]
    exact ⟨rfl, rfl, rfl⟩
  | some tree =>
    rw [if_neg (by simp [Table.has, ht]), ← edited?_onBehavior f ht]
    exact edit_spec hd label _

/-- A scripted edit of the behavior tree is one that throws errors only. -/
theorem settled_editBehavior (s : Session) (label : String) (f : Value → Except String Value) :
    s.settled (s.editBehaviorCatching label fun v => (f v).mapError .error) =
      s.editBehavior label f := by
  rw [editBehaviorCatching_error]
  rfl

theorem behaviorEdited?_error (f : Value → Except String Value) :
    behaviorEdited? (fun v => (f v).mapError Thrown.error) = behaviorEdited? f := by
  funext t
  unfold behaviorEdited?
  cases t.get? "behavior" with
  | none => rfl
  | some tree =>
    simp only
    cases f tree <;> rfl

/-- **Undoing steps back in the history**, if there is a step to go back. -/
theorem undo_spec (hd : s.document = some d) :
    match s.history.undo? d.current with
    | none => s.Stays s.undo
    | some (previous, history) => Moves d history previous s.undo := by
  unfold undo
  rw [hd, Option.bind_some]
  cases s.history.undo? d.current with
  | none => exact ⟨rfl, rfl, rfl⟩
  | some p => exact ⟨rfl, rfl, rfl⟩

/-- **Redoing steps forth in the history**, if there is a step to go forth. -/
theorem redo_spec (hd : s.document = some d) :
    match s.history.redo? d.current with
    | none => s.Stays s.redo
    | some (next, history) => Moves d history next s.redo := by
  unfold redo
  rw [hd, Option.bind_some]
  cases s.history.redo? d.current with
  | none => exact ⟨rfl, rfl, rfl⟩
  | some p => exact ⟨rfl, rfl, rfl⟩

/-- **A save in two parts**: what comes before the writer is called, and what is made of its
answer. -/
theorem saveCatching_eq {m : Type → Type} [Monad m] [LawfulMonad m] (s : Session)
    (numeral : Number → String) (write : (path text : String) → m (Except Thrown Unit)) :
    s.saveCatching numeral write =
      match s.attempt numeral with
      | .error result => pure (result.mapError .verdict)
      | .ok (d, text) =>
        (fun answer => (caught answer).map (s.written d)) <$> write d.path text := by
  unfold saveCatching
  cases s.attempt numeral with
  | error result => rfl
  | ok handed => exact (map_eq_pure_bind _ _).symm

variable {numeral : Number → String}

/-- A save that ends before its writer is called has failed, or could not word its verdict. -/
theorem attempt_error {result : Except Unwordable (Bool × Session)}
    (h : s.attempt numeral = .error result) :
    (∃ e, result = .error e) ∨ ∃ message, result = .ok (s.fail message) := by
  unfold attempt at h
  split at h
  · cases h
    exact .inr ⟨_, rfl⟩
  · split at h
    · cases h
      exact .inl ⟨_, rfl⟩
    · split at h
      · split at h
        · cases h
          exact .inr ⟨_, rfl⟩
        · cases h
      · cases h
        exact .inr ⟨_, rfl⟩

/-- A save calls its writer iff the document is valid and has a text, which it hands over. -/
theorem attempt_eq_ok_iff {text : String} :
    s.attempt numeral = .ok (d, text) ↔
      s.document = some d ∧ (∃ v, s.validate = .ok v ∧ v.isValid = true) ∧
        Toml.writeWith numeral d.current = .ok text := by
  unfold attempt validate
  cases hd : s.document with
  | none => simp
  | some d' =>
    simp only [Option.some.injEq]
    constructor
    · intro h
      split at h
      · cases h
      · rename_i v hv
        split at h
        · rename_i hvalid
          split at h
          · cases h
          · rename_i htext
            cases h
            exact ⟨rfl, ⟨v, hv, hvalid⟩, htext⟩
        · cases h
    · rintro ⟨rfl, ⟨v, hv, hvalid⟩, htext⟩
      simp only [hv, hvalid, if_true, htext]

/-- Saving leaves the history and the current document, whatever comes of it. -/
theorem save_spec (hd : s.document = some d) (numeral : Number → String)
    (write : (path text : String) → Except Thrown Unit) :
    (s.perform (.save numeral write)).2.history = s.history ∧
      ∃ saved, (s.perform (.save numeral write)).2.document = some { d with saved } := by
  unfold perform
  simp only [saveCatching_eq]
  cases h : s.attempt numeral with
  | error result =>
    rcases attempt_error h with ⟨e, rfl⟩ | ⟨message, rfl⟩ <;> exact ⟨rfl, d.saved, hd⟩
  | ok handed =>
    obtain ⟨d', text⟩ := handed
    obtain rfl : d = d' := Option.some.inj (hd.symm.trans (attempt_eq_ok_iff.mp h).1)
    cases hw : write d.path text with
    | error e =>
      simp only [Id.run, Functor.map, hw, caught]
      cases e.message? <;> exact ⟨rfl, d.saved, hd⟩
    | ok u =>
      simp only [Id.run, Functor.map, hw]
      exact ⟨rfl, d.current, rfl⟩

/-- What a change comes to in a session with the document `d`: an outcome of a step that another
document, the one before or the one after may come from. -/
def Performed (s : Session) (d : OpenDocument) (r : Bool × Session) : Change → Prop
  | .write next? =>
    match next? d.current with
    | none => s.Stays r
    | some next => Moves d (s.history.push d.current) next r
  | .back =>
    match s.history.undo? d.current with
    | none => s.Stays r
    | some (previous, history) => Moves d history previous r
  | .forth =>
    match s.history.redo? d.current with
    | none => s.Stays r
    | some (next, history) => Moves d history next r
  | .stay => r.2.history = s.history ∧ ∃ saved, r.2.document = some { d with saved }

/-- **Every operation is its change.** -/
theorem perform_spec (hd : s.document = some d) (x : SessionStep) :
    s.Performed d (s.perform x) x.change := by
  cases x with
  | edit label f => exact edit_spec hd label f
  | editBehavior label f => exact editBehavior_spec hd label f
  | apply op =>
    cases op with
    | edit e =>
      have hspec := editBehavior_spec hd e.label fun v => (e.run v).mapError .error
      rw [settled_editBehavior, behaviorEdited?_error] at hspec
      exact hspec
    | undo => exact undo_spec hd
    | redo => exact redo_spec hd
  | undo => exact undo_spec hd
  | redo => exact redo_spec hd
  | save numeral write => exact save_spec hd numeral write
  | validate => exact ⟨rfl, d.saved, hd⟩

end Session

/-! ## Changes that succeed -/

/-- What a change that succeeds does to the history and the present document `current`. -/
inductive Turns (history : History (Table Value)) (current : Table Value) :
    Change → History (Table Value) → Table Value → Prop where
  | write {next? : Table Value → Option (Table Value)} {next : Table Value}
    (hnext : next? current = some next) :
    Turns history current (.write next?) (history.push current) next
  | back {past : List (Table Value)} {previous : Table Value}
    (hpast : history.past = previous :: past) :
    Turns history current .back ⟨history.limit, past, current :: history.future⟩ previous
  | forth {future : List (Table Value)} {next : Table Value}
    (hfuture : history.future = next :: future) :
    Turns history current .forth
      ⟨history.limit, (current :: history.past).take history.limit, future⟩ next

/-- **A change fails, or puts another document in place of the present one**, as `Turns` says. -/
theorem Session.Performed.stays_or_turns {s : Session} {d : OpenDocument} {r : Bool × Session}
    {change : Change} (h : s.Performed d r change) (hne : change ≠ .stay) :
    s.Stays r ∨ ∃ history current,
      Moves d history current r ∧ Turns s.history d.current change history current := by
  cases change with
  | write next? =>
    unfold Performed at h
    cases hnext : next? d.current with
    | none => exact .inl (by simpa only [hnext] using h)
    | some next => exact .inr ⟨_, next, by simpa only [hnext] using h, .write hnext⟩
  | back =>
    unfold Performed at h
    cases hundo : s.history.undo? d.current with
    | none => exact .inl (by simpa only [hundo] using h)
    | some p =>
      obtain ⟨past, hpast, hhistory⟩ := History.undo?_eq_some_iff.mp hundo
      exact .inr ⟨_, p.1, by simpa only [hundo, hhistory] using h, .back hpast⟩
  | forth =>
    unfold Performed at h
    cases hredo : s.history.redo? d.current with
    | none => exact .inl (by simpa only [hredo] using h)
    | some p =>
      obtain ⟨future, hfuture, hhistory⟩ := History.redo?_eq_some_iff.mp hredo
      exact .inr ⟨_, p.1, by simpa only [hredo, hhistory] using h, .forth hfuture⟩
  | stay => exact absurd rfl hne

end Bestiary
