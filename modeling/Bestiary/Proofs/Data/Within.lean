import Bestiary.Proofs.Data.Equal
import Bestiary.Proofs.Data.Lookup

/-!
# Values that hold all of another

One value holds all of another if it has everything that the other has in its place: the same
leaves, as many items, and under each key of a table something that holds all of what is there. It
may have more keys, at every depth.

* `Value.within` decides it; `Value.withinItems_iff` and `Value.within_table_iff` read the decision
  item by item and entry by entry.
* `Value.within_of_same`: what is the same holds all of the other.
* `Value.exists_at?_of_within`: what is reached in a value is within what is reached in a value
  that holds all of it.
-/

namespace Bestiary.Value

mutual

/-- Whether everything in a value is in the other. -/
def within : Value → Value → Bool
  | .text a, .text b => a = b
  | .number a, .number b => a = b
  | .flag a, .flag b => a = b
  | .list a, .list b => withinItems a b
  | .table a, .table b => withinEntries a b
  | _, _ => false

/-- Whether two lists are as long, and each item is within the other at its place. -/
def withinItems : List Value → List Value → Bool
  | [], [] => true
  | a :: as, b :: bs => within a b && withinItems as bs
  | _, _ => false

/-- Whether every entry is within what `t` has under its key. -/
def withinEntries : List (String × Value) → Table Value → Bool
  | [], _ => true
  | (k, v) :: rest, t =>
    (match t.get? k with
      | some w => within v w
      | none => false) && withinEntries rest t

end

attribute [local simp] within withinItems withinEntries

theorem withinItems_iff {as bs : List Value} :
    withinItems as bs = true ↔ List.Forall₂ (fun a b => within a b = true) as bs := by
  induction as generalizing bs with
  | nil => cases bs <;> simp
  | cons a as ih => cases bs <;> simp [ih]

theorem within_table_iff {t u : Table Value} :
    within (.table t) (.table u) = true ↔
      ∀ e ∈ t, ∃ w, u.get? e.1 = some w ∧ within e.2 w = true := by
  rw [within]
  induction t with
  | nil => simp
  | cons e t ih =>
    obtain ⟨k, v⟩ := e
    rw [withinEntries, List.forall_mem_cons, Bool.and_eq_true, ih]
    refine and_congr_left fun _ => ?_
    cases u.get? k <;> simp

/-- What is the same holds all of the other. -/
theorem within_of_same {v w : Value} (h : same v w = true) : within v w = true := by
  induction v using Data.induction generalizing w with
  | list items ih =>
    obtain ⟨items', rfl, hitems⟩ := exists_of_list_same h
    rw [within, withinItems_iff]
    clear h
    induction hitems with
    | nil => exact .nil
    | cons hab _ ihitems =>
      rw [List.forall_mem_cons] at ih
      exact .cons (ih.1 hab) (ihitems ih.2)
  | table t ih =>
    obtain ⟨u, rfl⟩ := exists_of_table_same h
    rw [within_table_iff]
    intro e he
    obtain ⟨w, hw, hsame⟩ := (same_table_iff.mp h).2 e he
    exact ⟨w, hw, ih e he hsame⟩
  | alien e => exact e.elim
  | _ =>
    obtain rfl := eq_of_leaf_same h rfl rfl
    simp

theorem within_refl {v : Value} (hv : v.WellKeyed) : within v v = true :=
  within_of_same (same_refl hv)

/-- A value that holds all of another has something under each of its keys. -/
theorem exists_field?_of_within {v w x : Value} (h : within v w = true) {key : String}
    (hx : v.field? key = some x) : ∃ y, w.field? key = some y ∧ within x y = true := by
  cases v with
  | table t =>
    cases w with
    | table u => exact within_table_iff.mp h _ (Table.mem_of_get? hx)
    | _ => exact absurd h (by simp)
  | _ => exact absurd hx (by simp [Data.field?, Data.table?])

/-- **What is reached in a value is within what is reached in a value that holds all of it.** -/
theorem exists_at?_of_within {v w x : Value} (h : within v w = true) {keys : List String}
    (hx : v.at? keys = some x) : ∃ y, w.at? keys = some y ∧ within x y = true := by
  induction keys generalizing v w with
  | nil =>
    obtain rfl := Option.some.inj hx
    exact ⟨w, rfl, h⟩
  | cons key keys ih =>
    obtain ⟨x', hx', hx⟩ := Option.bind_eq_some_iff.mp hx
    obtain ⟨y', hy', hwithin⟩ := exists_field?_of_within h hx'
    obtain ⟨y, hy, hxy⟩ := ih hwithin hx
    exact ⟨y, by rw [at?_cons, hy', Option.bind_some, hy], hxy⟩

end Bestiary.Value
