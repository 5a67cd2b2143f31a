import Bestiary.Proofs.Editor.Snapshots

/-!
# A session is a timeline

A timeline is a list of documents with a cursor. Writing a document cuts off what comes after the
cursor, appends the document, moves onto it and drops documents from the front until no more than
the limit are left in front of the cursor. Undoing and redoing move the cursor by one. A session
keeps two stacks and a document instead; what `History.timeline` makes of them is a timeline that
every operation changes as a timeline changes.

* `Follows.perform` says so of one operation, `Follows.run` of every run, and
  `Session.run_isTimeline` what it means after a document was opened.
* `depths_le_limit` is the invariant that carries it: together, the two stacks never hold more
  than the limit.
-/

namespace Bestiary

/-- Documents in the order in which they were written, and which of them is the present one. -/
structure Timeline (α : Type) where
  documents : List α
  cursor : Nat

namespace Timeline

variable {α : Type}

/-- A timeline of one document. -/
def single (a : α) : Timeline α := ⟨[a], 0⟩

/-- The document at the cursor. -/
def current? (t : Timeline α) : Option α := t.documents[t.cursor]?

/-- The timeline with documents dropped from the front until no more than `limit` come before the
cursor. -/
def trim (limit : Nat) (t : Timeline α) : Timeline α :=
  ⟨t.documents.drop (t.cursor - limit), t.cursor - (t.cursor - limit)⟩

/-- The timeline with a document written after the one at the cursor. -/
def write (limit : Nat) (a : α) (t : Timeline α) : Timeline α :=
  trim limit ⟨t.documents.take (t.cursor + 1) ++ [a], t.cursor + 1⟩

/-- The timeline after a change, and whether the change succeeded. -/
def perform (limit : Nat) (t : Timeline (Table Value)) : Change → Bool × Timeline (Table Value)
  | .write next? =>
    match t.current?.bind next? with
    | some a => (true, t.write limit a)
    | none => (false, t)
  | .back => if 0 < t.cursor then (true, { t with cursor := t.cursor - 1 }) else (false, t)
  | .forth =>
    if t.cursor + 1 < t.documents.length then (true, { t with cursor := t.cursor + 1 })
    else (false, t)
  | .stay => (false, t)

/-- The timeline after the changes of a list of operations. -/
def run (limit : Nat) (t : Timeline (Table Value)) (steps : List SessionStep) :
    Timeline (Table Value) :=
  steps.foldl (fun t x => (t.perform limit x.change).2) t

end Timeline

/-! ## The timeline of a history -/

namespace History

variable {α : Type}

/-- The timeline that a history and the present document stand for. -/
def timeline (h : History α) (current : α) : Timeline α :=
  ⟨h.past.reverse ++ current :: h.future, h.past.length⟩

theorem current?_timeline (h : History α) (a : α) : (h.timeline a).current? = some a := by
  unfold timeline Timeline.current?
  simp only
  rw [List.getElem?_append_right (by simp), List.length_reverse, Nat.sub_self]
  rfl

/-- Recording a snapshot is writing to the timeline. -/
theorem timeline_push (h : History α) (a b : α) :
    (h.push a).timeline b = (h.timeline a).write h.limit b := by
  have htake : (h.past.reverse ++ a :: h.future).take (h.past.length + 1) =
      (a :: h.past).reverse := by
    rw [List.take_append, List.take_of_length_le (by simp), List.length_reverse,
      Nat.add_sub_cancel_left, List.take_succ_cons, List.take_zero, List.reverse_cons]
  have hlen : (a :: h.past).length = h.past.length + 1 := List.length_cons
  unfold push timeline Timeline.write Timeline.trim
  simp only
  rw [htake, ← hlen, List.reverse_take, List.length_take,
    List.drop_append_of_le_length (by simp only [List.length_reverse]; omega)]
  congr 1
  omega

/-- A step back is a step back of the cursor. -/
theorem timeline_undo? {h h' : History α} {a b : α} (hu : h.undo? a = some (b, h')) :
    h'.timeline b = { h.timeline a with cursor := (h.timeline a).cursor - 1 } := by
  obtain ⟨past, hpast, rfl⟩ := undo?_eq_some_iff.mp hu
  simp [timeline, hpast]

/-- As long as there is room for one more snapshot, a step forth is a step forth of the cursor and
drops no snapshot. -/
theorem timeline_redo? {h h' : History α} {a b : α} (hl : h.past.length < h.limit)
    (hr : h.redo? a = some (b, h')) :
    h'.timeline b = { h.timeline a with cursor := (h.timeline a).cursor + 1 } ∧
      h'.past = a :: h.past := by
  obtain ⟨future, hfuture, rfl⟩ := redo?_eq_some_iff.mp hr
  have hall : (a :: h.past).take h.limit = a :: h.past := List.take_of_length_le hl
  refine ⟨?_, hall⟩
  unfold timeline
  simp only [hall, hfuture]
  simp

end History

/-! ## Following a timeline -/

/-- A session goes by a timeline: its document is the one at the cursor, its stacks hold the
documents before and after it, and together they hold no more than the limit. -/
structure Follows (s : Session) (limit : Nat) (t : Timeline (Table Value)) : Prop where
  limit_eq : s.history.limit = limit
  isTimeline : ∃ d, s.document = some d ∧ s.history.timeline d.current = t
  depths_le_limit : s.history.undoDepth + s.history.redoDepth ≤ limit

namespace Follows

variable {s : Session} {limit : Nat} {t : Timeline (Table Value)}

/-- An outcome that leaves document and history leaves the timeline. -/
theorem of_eq {s' : Session} (h : Follows s limit t) (hh : s'.history = s.history)
    (hd : s'.document.map (·.current) = s.document.map (·.current)) : Follows s' limit t := by
  obtain ⟨d, hs, ht⟩ := h.isTimeline
  rw [hs, Option.map_some] at hd
  obtain ⟨d', hs', hcur⟩ := Option.map_eq_some_iff.mp hd
  refine ⟨by rw [hh]; exact h.limit_eq, ⟨d', hs', by rw [hh, hcur]; exact ht⟩, ?_⟩
  rw [hh]
  exact h.depths_le_limit

theorem of_stays {r : Bool × Session} (h : Follows s limit t) (hr : s.Stays r) :
    Follows r.2 limit t :=
  h.of_eq hr.history (by rw [hr.document])

/-- An outcome with another document and history leaves the timeline of these. -/
theorem of_moves {d : OpenDocument} {history : History (Table Value)} {current : Table Value}
    {r : Bool × Session} (hr : Session.Moves d history current r) (hlimit : history.limit = limit)
    (hdepths : history.undoDepth + history.redoDepth ≤ limit) :
    Follows r.2 limit (history.timeline current) := by
  refine ⟨?_, ⟨_, hr.document, ?_⟩, ?_⟩ <;> rw [hr.history]
  · exact hlimit
  · rfl
  · exact hdepths

/-- The document is the one at the cursor. -/
theorem current?_eq (h : Follows s limit t) : s.document.map (·.current) = t.current? := by
  obtain ⟨d, hs, rfl⟩ := h.isTimeline
  rw [hs, History.current?_timeline]
  rfl

/-- There is something to undo iff the cursor is not at the first document. -/
theorem canUndo_eq (h : Follows s limit t) : s.history.canUndo = decide (0 < t.cursor) := by
  obtain ⟨d, _, rfl⟩ := h.isTimeline
  rfl

/-- There is something to redo iff the cursor is not at the last document. -/
theorem canRedo_eq (h : Follows s limit t) :
    s.history.canRedo = decide (t.cursor + 1 < t.documents.length) := by
  obtain ⟨d, _, rfl⟩ := h.isTimeline
  unfold History.canRedo History.redoDepth History.timeline
  simp only [List.length_append, List.length_reverse, List.length_cons]
  congr 1
  simp only [eq_iff_iff]
  omega

/-- Where a step forth is possible there is room for it. -/
theorem room (h : Follows s limit t) (hf : s.history.future ≠ []) :
    s.history.past.length < s.history.limit := by
  have hlen := List.length_pos_iff.mpr hf
  have hle := h.depths_le_limit
  rw [h.limit_eq]
  unfold History.undoDepth History.redoDepth at hle
  omega

end Follows

/-! ## One operation -/

namespace Follows

variable {s : Session} {limit : Nat} {t : Timeline (Table Value)} {d : OpenDocument}

/-- A document written to the session is one written to the timeline. -/
theorem write {r : Bool × Session} (h : Follows s limit t) (hd : s.document = some d)
    {next? : Table Value → Option (Table Value)}
    (hr : match next? d.current with
      | none => s.Stays r
      | some next => Session.Moves d (s.history.push d.current) next r) :
    Follows r.2 limit (t.perform limit (.write next?)).2 ∧
      r.1 = (t.perform limit (.write next?)).1 := by
  obtain ⟨d', hd', rfl⟩ := h.isTimeline
  obtain rfl : d' = d := Option.some.inj (hd'.symm.trans hd)
  unfold Timeline.perform
  simp only [History.current?_timeline, Option.bind_some]
  cases hn : next? d'.current with
  | none =>
    rw [hn] at hr
    exact ⟨h.of_stays hr, hr.fails⟩
  | some next =>
    rw [hn] at hr
    have hdepths : (s.history.push d'.current).undoDepth ≤ limit := by
      rw [← h.limit_eq]
      exact List.length_take_le _ _
    have hfollows := of_moves hr h.limit_eq hdepths
    rw [History.timeline_push, h.limit_eq] at hfollows
    exact ⟨hfollows, hr.succeeds⟩

/-- A step back in the session is a step back in the timeline. -/
theorem back {r : Bool × Session} (h : Follows s limit t) (hd : s.document = some d)
    (hr : match s.history.undo? d.current with
      | none => s.Stays r
      | some (previous, history) => Session.Moves d history previous r) :
    Follows r.2 limit (t.perform limit .back).2 ∧ r.1 = (t.perform limit .back).1 := by
  obtain ⟨d', hd', rfl⟩ := h.isTimeline
  obtain rfl : d' = d := Option.some.inj (hd'.symm.trans hd)
  unfold Timeline.perform
  simp only
  cases hu : s.history.undo? d'.current with
  | none =>
    rw [hu] at hr
    rw [if_neg (by simp [History.timeline, History.undo?_eq_none_iff.mp hu])]
    exact ⟨h.of_stays hr, hr.fails⟩
  | some p =>
    obtain ⟨previous, history⟩ := p
    rw [hu] at hr
    obtain ⟨past, hpast, rfl⟩ := History.undo?_eq_some_iff.mp hu
    rw [if_pos (by simp [History.timeline, hpast]), ← History.timeline_undo? hu]
    refine ⟨of_moves hr h.limit_eq ?_, hr.succeeds⟩
    have hdepths := h.depths_le_limit
    simp only [History.undoDepth, History.redoDepth, hpast, List.length_cons] at hdepths ⊢
    omega

/-- A step forth in the session is a step forth in the timeline. -/
theorem forth {r : Bool × Session} (h : Follows s limit t) (hd : s.document = some d)
    (hr : match s.history.redo? d.current with
      | none => s.Stays r
      | some (next, history) => Session.Moves d history next r) :
    Follows r.2 limit (t.perform limit .forth).2 ∧ r.1 = (t.perform limit .forth).1 := by
  obtain ⟨d', hd', rfl⟩ := h.isTimeline
  obtain rfl : d' = d := Option.some.inj (hd'.symm.trans hd)
  unfold Timeline.perform
  simp only
  cases hre : s.history.redo? d'.current with
  | none =>
    rw [hre] at hr
    rw [if_neg (by simp [History.timeline, History.redo?_eq_none_iff.mp hre])]
    exact ⟨h.of_stays hr, hr.fails⟩
  | some p =>
    obtain ⟨next, history⟩ := p
    rw [hre] at hr
    obtain ⟨future, hfuture, rfl⟩ := History.redo?_eq_some_iff.mp hre
    obtain ⟨htimeline, hpast⟩ := History.timeline_redo? (h.room (by simp [hfuture])) hre
    simp only at hpast
    rw [if_pos (by simp [History.timeline, hfuture]), ← htimeline]
    refine ⟨of_moves hr h.limit_eq ?_, hr.succeeds⟩
    have hdepths := h.depths_le_limit
    simp only [History.undoDepth, History.redoDepth, hpast, hfuture,
      List.length_cons] at hdepths ⊢
    omega

/-- **Every operation changes the timeline of the session as its change says**, and an edit, an
undo or a redo succeeds iff its change does. -/
theorem perform (h : Follows s limit t) (x : SessionStep) :
    Follows (s.perform x).2 limit (t.perform limit x.change).2 ∧
      (x.change ≠ .stay → (s.perform x).1 = (t.perform limit x.change).1) := by
  obtain ⟨d, hd, -⟩ := h.isTimeline
  have hp := Session.perform_spec hd x
  cases hx : x.change with
  | write next? =>
    rw [hx] at hp
    have hw := h.write hd hp
    exact ⟨hw.1, fun _ => hw.2⟩
  | back =>
    rw [hx] at hp
    have hb := h.back hd hp
    exact ⟨hb.1, fun _ => hb.2⟩
  | forth =>
    rw [hx] at hp
    have hf := h.forth hd hp
    exact ⟨hf.1, fun _ => hf.2⟩
  | stay =>
    rw [hx] at hp
    obtain ⟨hh, saved, hs⟩ := hp
    exact ⟨h.of_eq hh (by rw [hs, hd]; rfl), fun hne => absurd rfl hne⟩

/-! ## Runs -/

/-- Runs follow the timeline that they follow step by step. -/
theorem run (steps : List SessionStep) :
    ∀ {s : Session} {t : Timeline (Table Value)}, Follows s limit t →
      Follows (s.run steps) limit (t.run limit steps) := by
  induction steps with
  | nil => exact fun h => h
  | cons x steps ih => exact fun h => ih (h.perform x).1

/-- A session goes by the timeline of the document that was just opened. -/
theorem «open» (s : Session) (path : String) (kind : DocumentKind)
    (base : Option (Table Value)) (document : Table Value) :
    Follows (s.open path kind base document) s.history.limit (.single document) :=
  ⟨rfl, ⟨_, rfl, rfl⟩, Nat.zero_le _⟩

end Follows

/-! ## Back and forth -/

namespace Session

variable {s : Session} {limit : Nat} {t : Timeline (Table Value)}

/-- Redoing what was just undone brings back document and history. -/
theorem redo_undo (h : Follows s limit t) (hfresh : ∀ d, s.document = some d → d.IsUpToDate)
    (hu : s.undo.1 = true) :
    s.undo.2.redo.1 = true ∧ s.undo.2.redo.2.document = s.document ∧
      s.undo.2.redo.2.history = s.history := by
  obtain ⟨d, hd, -⟩ := h.isTimeline
  have hs := undo_spec hd
  cases hue : s.history.undo? d.current with
  | none =>
    rw [hue] at hs
    rw [hs.fails] at hu
    exact absurd hu Bool.false_ne_true
  | some p =>
    obtain ⟨previous, history⟩ := p
    rw [hue] at hs
    have hback : history.redo? previous = some (d.current, s.history) := by
      refine History.redo?_undo? ?_ hue
      rw [h.limit_eq]
      exact Nat.le_trans (Nat.le_add_right _ _) h.depths_le_limit
    have hr := redo_spec hs.document
    simp only [hs.history, OpenDocument.replace, hback] at hr
    refine ⟨hr.succeeds, ?_, hr.history⟩
    rw [hd, ← (hfresh d hd).replace_replace previous]
    exact hr.document

/-- Undoing what was just redone brings back document and history. -/
theorem undo_redo (h : Follows s limit t) (hfresh : ∀ d, s.document = some d → d.IsUpToDate)
    (hr : s.redo.1 = true) :
    s.redo.2.undo.1 = true ∧ s.redo.2.undo.2.document = s.document ∧
      s.redo.2.undo.2.history = s.history := by
  obtain ⟨d, hd, -⟩ := h.isTimeline
  have hs := redo_spec hd
  cases hre : s.history.redo? d.current with
  | none =>
    rw [hre] at hs
    rw [hs.fails] at hr
    exact absurd hr Bool.false_ne_true
  | some p =>
    obtain ⟨next, history⟩ := p
    rw [hre] at hs
    have hne : s.history.future ≠ [] := fun he => by simp [History.redo?, he] at hre
    have hforth := History.undo?_redo? (h.room hne) hre
    have hu := undo_spec hs.document
    simp only [hs.history, OpenDocument.replace, hforth] at hu
    refine ⟨hu.succeeds, ?_, hu.history⟩
    rw [hd, ← (hfresh d hd).replace_replace next]
    exact hu.document

/-- **A session is a bounded timeline.** After a document was opened and any operations were
carried out, the session goes by the timeline that the same changes make of that one document: its
document is the one at the cursor and the two depths together are within the limit. The next
operation, whichever it is, changes both alike; undo is possible iff the cursor is not at the first
document and redo iff it is not at the last; a redo drops no snapshot; and undo and redo cancel
out, document and both stacks. -/
theorem run_isTimeline (s : Session) (path : String) (kind : DocumentKind)
    (base : Option (Table Value)) (document : Table Value) (steps : List SessionStep) :
    let now := (s.open path kind base document).run steps
    let t := (Timeline.single document).run s.history.limit steps
    Follows now s.history.limit t ∧
      now.document.map (·.current) = t.current? ∧
      (∀ x, Follows (now.perform x).2 s.history.limit (t.perform s.history.limit x.change).2 ∧
        (x.change ≠ .stay →
          (now.perform x).1 = (t.perform s.history.limit x.change).1)) ∧
      now.history.canUndo = decide (0 < t.cursor) ∧
      now.history.canRedo = decide (t.cursor + 1 < t.documents.length) ∧
      (∀ a b history, now.history.redo? a = some (b, history) →
        history.past = a :: now.history.past) ∧
      (now.undo.1 = true → now.undo.2.redo.1 = true ∧
        now.undo.2.redo.2.document = now.document ∧
        now.undo.2.redo.2.history = now.history) ∧
      (now.redo.1 = true → now.redo.2.undo.1 = true ∧
        now.redo.2.undo.2.document = now.document ∧
        now.redo.2.undo.2.history = now.history) := by
  intro now t
  have h : Follows now s.history.limit t := (Follows.open s path kind base document).run steps
  have hfresh : ∀ d, now.document = some d → d.IsUpToDate := fun _ hd =>
    run_isUpToDate s path kind base document steps hd
  refine ⟨h, h.current?_eq, h.perform, h.canUndo_eq, h.canRedo_eq, ?_, redo_undo h hfresh,
    undo_redo h hfresh⟩
  intro a b history hr
  have hne : now.history.future ≠ [] := fun he => by simp [History.redo?, he] at hr
  exact (History.timeline_redo? (h.room hne) hr).2

end Session

end Bestiary
