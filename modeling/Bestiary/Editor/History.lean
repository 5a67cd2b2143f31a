/-!
# Undo and redo

What can be undone and redone: snapshots of a document, the latest first. Only so many snapshots
are kept to go back to; the oldest is dropped first.

* `History.push` records a snapshot, `History.undo?` and `History.redo?` step back and forth.
* `undo?_eq_some_iff` and `redo?_eq_some_iff` say what a step does; `redo?_undo?` and `undo?_redo?`
  that a step back and a step forth cancel out.
-/

namespace Bestiary

/-- Snapshots before and after the present one. -/
structure History (α : Type) where
  /-- How many snapshots are kept to go back to. -/
  limit : Nat
  past : List α
  future : List α

namespace History

variable {α : Type}

/-- How many snapshots are kept unless something else is asked for. -/
def defaultLimit : Nat := 50

/-- A history of nothing. -/
def empty (limit : Nat) : History α := ⟨limit, [], []⟩

/-- The history with a snapshot recorded before an edit. What could be redone is gone. -/
def push (h : History α) (a : α) : History α := ⟨h.limit, (a :: h.past).take h.limit, []⟩

/-- The snapshot before `current`, and the history from there. -/
def undo? (h : History α) (current : α) : Option (α × History α) :=
  match h.past with
  | [] => none
  | a :: past => some (a, ⟨h.limit, past, current :: h.future⟩)

/-- The snapshot after `current`, and the history from there. -/
def redo? (h : History α) (current : α) : Option (α × History α) :=
  match h.future with
  | [] => none
  | a :: future => some (a, ⟨h.limit, (current :: h.past).take h.limit, future⟩)

/-- The history without its snapshots. -/
def clear (h : History α) : History α := empty h.limit

/-- How many steps can be undone. -/
def undoDepth (h : History α) : Nat := h.past.length

/-- How many steps can be redone. -/
def redoDepth (h : History α) : Nat := h.future.length

/-- Whether there is anything to undo. -/
def canUndo (h : History α) : Bool := 0 < h.undoDepth

/-- Whether there is anything to redo. -/
def canRedo (h : History α) : Bool := 0 < h.redoDepth

section Steps

variable {h h' : History α} {a current : α}

theorem undo?_eq_none_iff : h.undo? current = none ↔ h.past = [] := by
  unfold undo?
  cases h.past <;> simp

/-- **A step back** takes the latest snapshot, and the present one can be redone. -/
theorem undo?_eq_some_iff :
    h.undo? current = some (a, h') ↔
      ∃ past, h.past = a :: past ∧ h' = ⟨h.limit, past, current :: h.future⟩ := by
  unfold undo?
  cases h.past with
  | nil => simp
  | cons b past => simp [eq_comm, and_assoc]

theorem redo?_eq_none_iff : h.redo? current = none ↔ h.future = [] := by
  unfold redo?
  cases h.future <;> simp

/-- **A step forth** takes the snapshot that was undone last, and the present one is recorded. -/
theorem redo?_eq_some_iff :
    h.redo? current = some (a, h') ↔
      ∃ future, h.future = a :: future ∧
        h' = ⟨h.limit, (current :: h.past).take h.limit, future⟩ := by
  unfold redo?
  cases h.future with
  | nil => simp
  | cons b future => simp [eq_comm, and_assoc]

/-- A step forth undoes a step back, as long as no more is kept than the limit allows. -/
theorem redo?_undo? (hl : h.past.length ≤ h.limit) (hu : h.undo? current = some (a, h')) :
    h'.redo? a = some (current, h) := by
  obtain ⟨past, hpast, rfl⟩ := undo?_eq_some_iff.mp hu
  refine redo?_eq_some_iff.mpr ⟨h.future, rfl, ?_⟩
  rw [← hpast, List.take_of_length_le hl]

/-- A step back undoes a step forth, as long as there is room for it. -/
theorem undo?_redo? (hl : h.past.length < h.limit) (hr : h.redo? current = some (a, h')) :
    h'.undo? a = some (current, h) := by
  obtain ⟨future, hfuture, rfl⟩ := redo?_eq_some_iff.mp hr
  have hall : (current :: h.past).take h.limit = current :: h.past := List.take_of_length_le hl
  refine undo?_eq_some_iff.mpr ⟨h.past, hall, ?_⟩
  rw [← hfuture]

end Steps

end History

end Bestiary
