import Bestiary.Behavior.Command
import Bestiary.Behavior.Layout
import Bestiary.Proofs.Data.Induction
import Bestiary.Proofs.Schema.Record

/-!
# Which commands can be read

A command can be read iff its table names an action, has the parameters of that action and, for the
one action with nested commands, a list of commands that can be read.

* `Command.HasParams` is what a table must have for an action, nested commands apart.
* `Command.isReadable_table_iff` says when a table can be read.
-/

namespace Bestiary.Command

open Record

variable {ε : Type} [HasKind ε] {entries : Table (Data ε)}

/-- A command that can be read. -/
def IsReadable (d : Data ε) : Prop := ∃ c, read d = .ok c

/-- A table with the parameters of an action and nothing else, whatever its nested commands are. -/
def HasParams (entries : Table (Data ε)) (a : Action) : Prop :=
  ∃ c, readParams entries (.ok []) a = .ok c

/-! ## Nested commands -/

theorem readNested_eq (entries : Table (Data ε)) :
    readNested entries =
      match entries.get? "behaviors" with
      | some d => under (.key "behaviors") (readList d)
      | none => .error ⟨[.key "behaviors"], .missing⟩ := by
  induction entries with
  | nil => rfl
  | cons e rest ih =>
    obtain ⟨k, d⟩ := e
    unfold readNested
    rw [Table.get?_cons]
    split
    · rfl
    · exact ih

/-- Commands can be read one after the other iff each can. -/
theorem readFrom_ok_iff (i : Nat) (items : List (Data ε)) :
    (∃ commands, readFrom i items = .ok commands) ↔ ∀ d ∈ items, IsReadable d := by
  induction items generalizing i with
  | nil => exact ⟨fun _ _ hd => absurd hd List.not_mem_nil, fun _ => ⟨[], by rw [readFrom]⟩⟩
  | cons d items ih =>
    rw [List.forall_mem_cons, ← ih (i + 1)]
    rw [readFrom]
    simp only [Except.bind_eq_ok_iff, under_eq_ok_iff, Except.mapError_eq_ok_iff]
    constructor
    · rintro ⟨_, c, hc, rest, hrest, -⟩
      exact ⟨⟨c, hc⟩, rest, hrest⟩
    · rintro ⟨⟨c, hc⟩, rest, hrest⟩
      exact ⟨c :: rest, c, hc, rest, hrest, rfl⟩

/-- A list of commands can be read iff it is a list and each item can. -/
theorem readList_ok_iff (d : Data ε) :
    (∃ commands, readList d = .ok commands) ↔
      ∃ items, d = .list items ∧ ∀ x ∈ items, IsReadable x := by
  cases d with
  | list items =>
    rw [readList, readFrom_ok_iff]
    simp
  | _ => simp [readList]

theorem readNested_ok_iff (entries : Table (Data ε)) :
    (∃ commands, readNested entries = .ok commands) ↔
      ∃ items, entries.get? "behaviors" = some (.list items) ∧ ∀ x ∈ items, IsReadable x := by
  rw [readNested_eq]
  cases entries.get? "behaviors" with
  | none => simp
  | some d =>
    simp only [under_eq_ok_iff, Option.some.injEq]
    exact readList_ok_iff d

/-! ## Parameters -/

/-- Only one action has nested commands; what they are read as matters to no other. -/
theorem readParams_ok_iff (nested : Except Issue (List Command)) (a : Action) :
    (∃ c, readParams entries nested a = .ok c) ↔
      HasParams entries a ∧ (a.nestedList?.isSome → ∃ commands, nested = .ok commands) := by
  cases a with
  | transmit =>
    unfold HasParams readParams
    simp only [Except.bind_eq_ok_iff]
    constructor
    · rintro ⟨_, mobType, hm, commands, hn, u, hu, -⟩
      exact ⟨⟨_, mobType, hm, [], rfl, u, hu, rfl⟩, fun _ => ⟨commands, hn⟩⟩
    · rintro ⟨⟨_, mobType, hm, -, -, u, hu, -⟩, hn⟩
      obtain ⟨commands, hn⟩ := hn rfl
      exact ⟨_, mobType, hm, commands, hn, u, hu, rfl⟩
  | _ => exact ⟨fun h => ⟨h, fun hn => absurd hn (by simp [Action.nestedList?])⟩, And.left⟩

/-- What is listed under `behaviors` does not matter to the parameters of the action that has
nested commands, as long as something may be there. -/
theorem hasParams_set_behaviors (d : Data ε) (h : HasParams entries .transmit) :
    HasParams (entries.set "behaviors" d) .transmit := by
  unfold HasParams readParams at h ⊢
  simp only [Except.bind_eq_ok_iff, required_eq_ok_iff, closed_eq_ok_iff] at h ⊢
  obtain ⟨_, mobType, hm, -, -, u, hu, -⟩ := h
  refine ⟨_, mobType, ?_, [], rfl, u, ?_, rfl⟩
  · rw [Table.get?_set, if_neg (by decide)]
    exact hm
  · intro k hk
    rcases Table.mem_keys_set.mp hk with rfl | hk
    · decide
    · exact hu k hk

theorem hasParams_of_set_behaviors {d : Data ε}
    (h : HasParams (entries.set "behaviors" d) .transmit) : HasParams entries .transmit := by
  unfold HasParams readParams at h ⊢
  simp only [Except.bind_eq_ok_iff, required_eq_ok_iff, closed_eq_ok_iff] at h ⊢
  obtain ⟨_, mobType, hm, -, -, u, hu, -⟩ := h
  rw [Table.get?_set, if_neg (by decide)] at hm
  exact ⟨_, mobType, hm, [], rfl, u, fun k hk => hu k (Table.mem_keys_set.mpr (.inr hk)), rfl⟩

/-! ## Commands -/

omit [HasKind ε] in
theorem readAction_eq_ok_iff {a : Action} :
    readAction entries = .ok a ↔
      ((entries.get? "action").bind Data.text?).bind Action.ofName? = some a := by
  unfold readAction
  cases entries.get? "action" with
  | none => simp
  | some d =>
    simp only [Option.bind_some]
    cases d.text?.bind Action.ofName? <;> simp

/-- **A table is a command** iff it names an action, has its parameters, and lists commands where
the action has nested ones. -/
theorem isReadable_table_iff :
    IsReadable (.table entries) ↔
      ∃ a, ((entries.get? "action").bind Data.text?).bind Action.ofName? = some a ∧
        HasParams entries a ∧
        (a.nestedList?.isSome → ∃ items, entries.get? "behaviors" = some (.list items) ∧
          ∀ x ∈ items, IsReadable x) := by
  unfold IsReadable
  rw [read]
  simp only [← readAction_eq_ok_iff]
  cases readAction entries with
  | error reason => simp
  | ok a =>
    simp only [Except.mapError_eq_ok_iff, Except.ok.injEq]
    rw [readParams_ok_iff]
    simp only [readNested_ok_iff, IsReadable, exists_eq_left']

/-- Nothing but a table is a command. -/
theorem not_isReadable_of_table?_eq_none {d : Data ε} (h : d.table? = none) : ¬IsReadable d := by
  rintro ⟨c, hc⟩
  cases d <;> simp_all [read, Data.table?]

end Bestiary.Command
