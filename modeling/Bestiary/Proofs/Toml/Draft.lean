import Bestiary.Proofs.Data.Table
import Bestiary.Toml.Draft

/-!
# Declarations below a table

A declaration whose path goes through a table that is there already changes that table and nothing
else: it commutes with the surroundings of the table.

* `Surrounds` says that a function puts a table in its place at a path; `Surrounds.below` goes one
  key further down.
* `openHeader?_of_fresh`: a header that goes through an absent table makes it, as if it had been
  there before.
-/

namespace Bestiary.Toml

namespace Draft

theorem finishEntries_eq_map (entries : Table Draft) :
    finishEntries entries = entries.map fun e => (e.1, finish e.2) := by
  induction entries with
  | nil => rfl
  | cons e entries ih => rw [finishEntries, ih, List.map_cons]

theorem finishElements_eq_map (elements : List (Table Draft)) :
    finishElements elements = elements.map fun es => .table (finishEntries es) := by
  induction elements with
  | nil => rfl
  | cons es elements ih => rw [finishElements, ih, List.map_cons]

/-- The table under the key opened by a header in single or double brackets. -/
def openHeader? (element : Bool) (entries : Table Draft) (key : List String) :
    Option (Table Draft) :=
  if element then openElement? entries key else openTable? entries key

/-- The table that a header makes of an absent one it goes through. -/
def fresh (element : Bool) (entries : Table Draft) : Draft :=
  if element then .between false entries else .opened false entries

/-- A declaration below an entry of the form `wrap` is one in the table that it holds. -/
def Wraps (wrap : Table Draft → Draft) : Prop :=
  ∀ (change : Table Draft → Option (Table Draft)) (es : Table Draft),
    below? change (wrap es) = (change es).map wrap

theorem Wraps.below?_eq {wrap : Table Draft → Draft} (h : Wraps wrap)
    (change : Table Draft → Option (Table Draft)) (es : Table Draft) :
    below? change (wrap es) = (change es).map wrap :=
  h change es

theorem wraps_opened (defined : Bool) : Wraps (.opened defined) := fun _ _ => rfl

theorem wraps_between (defined : Bool) : Wraps (.between defined) := fun _ _ => rfl

theorem wraps_fresh (element : Bool) : Wraps (fresh element) := by
  cases element with
  | true => exact wraps_between false
  | false => exact wraps_opened false

/-- Below a series is below its last element. -/
theorem wraps_series (elements : List (Table Draft)) :
    Wraps fun es => .series (elements ++ [es]) := by
  intro change es
  simp only [below?, changeLast?, List.getLast?_concat, List.dropLast_concat, Option.bind_some,
    Option.map_map]
  rfl

variable {entries es : Table Draft} {k : String} {q : List String}

/-! ## One key further down -/

theorem openHeader?_cons {wrap : Table Draft → Draft} (hwrap : Wraps wrap)
    (hk : entries.get? k = some (wrap es)) (element : Bool) (hq : q ≠ []) :
    openHeader? element entries (k :: q) =
      (openHeader? element es q).map fun es' => entries.set k (wrap es') := by
  cases q with
  | nil => exact absurd rfl hq
  | cons k' q =>
    cases element with
    | true =>
      simp only [openHeader?, if_true, openElement?, hk, hwrap.below?_eq, Option.map_map]
      rfl
    | false =>
      simp only [openHeader?, Bool.false_eq_true, if_false, openTable?, hk, hwrap.below?_eq,
        Option.map_map]
      rfl

theorem changeAt?_cons {wrap : Table Draft → Draft} (hwrap : Wraps wrap)
    (hk : entries.get? k = some (wrap es)) (q : List String)
    (change : Table Draft → Option (Table Draft)) :
    changeAt? entries (k :: q) change =
      (changeAt? es q change).map fun es' => entries.set k (wrap es') := by
  simp only [changeAt?, hk, Option.bind_some, hwrap.below?_eq, Option.map_map]
  rfl

/-- **A header that goes through an absent table makes it**, as if it had been there before. -/
theorem openHeader?_of_fresh (element : Bool) (hk : entries.get? k = none) (hq : q ≠ []) :
    openHeader? element (entries.set k (fresh element [])) (k :: q) =
      openHeader? element entries (k :: q) := by
  have hget : (entries.set k (fresh element [])).get? k = some (fresh element []) := by
    rw [Table.get?_set, if_pos rfl]
  rw [openHeader?_cons (wraps_fresh element) hget element hq]
  simp only [Table.set_set]
  cases q with
  | nil => exact absurd rfl hq
  | cons k' q =>
    cases element with
    | true => simp only [openHeader?, if_true, openElement?, hk, fresh]
    | false => simp only [openHeader?, Bool.false_eq_true, if_false, openTable?, hk, fresh]

end Draft

open Draft

/-! ## The surroundings of a table -/

/-- `C` puts a table in its place at the path: declarations below the path change that table and
leave what surrounds it. -/
structure Surrounds (path : List String) (C : Table Draft → Table Draft) : Prop where
  opens : ∀ (element : Bool) (es : Table Draft) (q : List String), q ≠ [] →
    openHeader? element (C es) (path ++ q) = (openHeader? element es q).map C
  changes : ∀ (es : Table Draft) (q : List String)
    (change : Table Draft → Option (Table Draft)),
    changeAt? (C es) (path ++ q) change = (changeAt? es q change).map C

/-- Nothing surrounds the whole document. -/
theorem surrounds_nil : Surrounds [] id :=
  ⟨fun _ _ _ _ => by simp, fun _ _ _ => by simp⟩

/-- **One key further down.** -/
theorem Surrounds.below {path : List String} {C : Table Draft → Table Draft}
    (h : Surrounds path C) {wrap : Table Draft → Draft} (hwrap : Wraps wrap) (es : Table Draft)
    (k : String) : Surrounds (path ++ [k]) fun es' => C (es.set k (wrap es')) := by
  have hget (es' : Table Draft) : (es.set k (wrap es')).get? k = some (wrap es') := by
    rw [Table.get?_set, if_pos rfl]
  refine ⟨?_, ?_⟩
  · intro element es' q hq
    rw [List.append_assoc, List.singleton_append,
      h.opens element _ _ (List.cons_ne_nil _ _), openHeader?_cons hwrap (hget es') element hq]
    simp only [Table.set_set, Option.map_map]
    rfl
  · intro es' q change
    rw [List.append_assoc, List.singleton_append, h.changes, changeAt?_cons hwrap (hget es')]
    simp only [Table.set_set, Option.map_map]
    rfl

end Bestiary.Toml
