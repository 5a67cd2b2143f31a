import Bestiary.Mob.Check
import Bestiary.Proofs.Tree.Sound

/-!
# What the checks of behavior trees find

The checks go by stand-ins: they read a node with harmless children and commands in place of its
own, and look at those by themselves. What they find comes to the same as reading the tree.

* `command_decides`: the check of a command finds nothing if it can be read, and an error if not.
* `errorFree_node_iff`: the check of a tree finds no error iff the tree is sound.
* `length_node`: on a sound tree, it remarks on every unknown node once.
-/

namespace Bestiary

namespace Check

open Bestiary.Tree

/-! ## Remarks without errors -/

/-- Nothing but warnings. -/
def ErrorFree (remarks : List Remark) : Prop :=
  ∀ r ∈ remarks, r.problem.severity = .warning

@[simp] theorem errorFree_nil : ErrorFree [] := fun _ h => absurd h List.not_mem_nil

@[simp] theorem errorFree_append {a b : List Remark} :
    ErrorFree (a ++ b) ↔ ErrorFree a ∧ ErrorFree b := List.forall_mem_append

@[simp] theorem errorFree_remark {place : FieldPath} {p : Problem} :
    ErrorFree (remark place p) ↔ p.severity = .warning := List.forall_mem_singleton

theorem errorFree_flatMap {α : Type} {l : List α} {f : α → List Remark} :
    ErrorFree (l.flatMap f) ↔ ∀ a ∈ l, ErrorFree (f a) := by
  unfold ErrorFree
  simp only [List.mem_flatMap]
  constructor
  · intro h a ha r hr
    exact h r ⟨a, ha, hr⟩
  · rintro h r ⟨a, ha, hr⟩
    exact h a ha r hr

/-- A check says nothing if `p` holds, and has an error if it does not. -/
structure Decides (remarks : List Remark) (p : Prop) : Prop where
  of_errorFree : ErrorFree remarks → p
  eq_nil : p → remarks = []

namespace Decides

variable {a b : List Remark} {p q : Prop}

theorem errorFree_iff (h : Decides a p) : ErrorFree a ↔ p := by
  refine ⟨h.of_errorFree, fun hp => ?_⟩
  rw [h.eq_nil hp]
  exact errorFree_nil

theorem congr (h : Decides a p) (hpq : p ↔ q) : Decides a q :=
  ⟨fun ha => hpq.mp (h.of_errorFree ha), fun hq => h.eq_nil (hpq.mpr hq)⟩

theorem nil (h : p) : Decides [] p := ⟨fun _ => h, fun _ => rfl⟩

theorem error {place : FieldPath} {problem : Problem} (hs : problem.severity = .error)
    (hp : ¬p) : Decides (remark place problem) p := by
  refine ⟨fun h => ?_, fun h => absurd h hp⟩
  rw [errorFree_remark, hs] at h
  exact absurd h (by simp)

theorem append (ha : Decides a p) (hb : Decides b q) : Decides (a ++ b) (p ∧ q) := by
  refine ⟨fun h => ?_, fun h => ?_⟩
  · rw [errorFree_append] at h
    exact ⟨ha.of_errorFree h.1, hb.of_errorFree h.2⟩
  · rw [ha.eq_nil h.1, hb.eq_nil h.2, List.nil_append]

/-- The items of a list are checked one by one. -/
theorem itemsFrom {check : FieldPath → Value → List Remark} {P : Value → Prop} (place : FieldPath)
    (i : Nat) {items : List Value} (h : ∀ v ∈ items, ∀ place, Decides (check place v) (P v)) :
    Decides (Check.itemsFrom check place i items) (∀ v ∈ items, P v) := by
  induction items generalizing i with
  | nil => exact .nil fun _ hv => absurd hv List.not_mem_nil
  | cons v items ih =>
    rw [List.forall_mem_cons] at h
    exact ((h.1 _).append (ih (i + 1) h.2)).congr List.forall_mem_cons.symm

end Decides

/-! ## Commands -/

theorem commandsFrom_eq (place : FieldPath) (i : Nat) (items : List Value) :
    commandsFrom place i items = itemsFrom command place i items := by
  induction items generalizing i with
  | nil => rfl
  | cons v items ih => rw [commandsFrom, itemsFrom, ih]

theorem commandsUnder_eq (key : String) (place : FieldPath) (entries : Table Value) :
    commandsUnder key place entries =
      match entries.get? key with
      | some v => commands place v
      | none => remark place .absent := by
  induction entries with
  | nil => rfl
  | cons e rest ih =>
    obtain ⟨k, v⟩ := e
    unfold commandsUnder
    rw [Table.get?_cons]
    split
    · rfl
    · exact ih

/-- What is no table is no command. -/
theorem command_of_table?_eq_none (place : FieldPath) (v : Value) (hv : v.table? = none) :
    command place v = remark place .notTable := by
  cases v <;> first | rfl | cases hv

theorem commands_of_list?_eq_none (place : FieldPath) (v : Value) (hv : v.list? = none) :
    commands place v = remark place .notList := by
  cases v <;> first | rfl | cases hv

/-- A list of commands is checked item by item. -/
theorem commands_decides (place : FieldPath) {v : Value}
    (h : ∀ items, v = .list items → ∀ x ∈ items, ∀ place,
      Decides (command place x) (Command.IsReadable x)) :
    Decides (commands place v)
      (∃ items, v = .list items ∧ ∀ x ∈ items, Command.IsReadable x) := by
  cases v with
  | list items =>
    rw [commands, commandsFrom_eq]
    refine (Decides.itemsFrom place 0 (h items rfl)).congr ?_
    simp
  | _ =>
    rw [commands_of_list?_eq_none place _ rfl]
    exact .error rfl (by simp)

/-- With nothing in its list of nested commands, a table is a command iff it has its parameters. -/
theorem isReadable_standIn_iff {a : Action} {entries : Table Value}
    (ha : ((entries.get? "action").bind Data.text?).bind Action.ofName? = some a) :
    Command.IsReadable (.table (match a.nestedList? with
      | some field => entries.set field (.list [])
      | none => entries)) ↔ Command.HasParams entries a := by
  rw [Command.isReadable_table_iff]
  cases a with
  | transmit =>
    have hget : (entries.set "behaviors" (.list [])).get? "action" = entries.get? "action" := by
      rw [Table.get?_set, if_neg (by decide)]
    simp only [Action.nestedList?, hget]
    constructor
    · rintro ⟨b, hb, hparams, -⟩
      obtain rfl := Option.some.inj (ha.symm.trans hb)
      exact Command.hasParams_of_set_behaviors hparams
    · intro hparams
      refine ⟨_, ha, Command.hasParams_set_behaviors _ hparams, fun _ => ⟨[], ?_, ?_⟩⟩
      · rw [Table.get?_set, if_pos rfl]
      · exact fun _ hx => absurd hx List.not_mem_nil
  | _ =>
    simp only [Action.nestedList?]
    constructor
    · rintro ⟨b, hb, hparams, -⟩
      obtain rfl := Option.some.inj (ha.symm.trans hb)
      exact hparams
    · intro hparams
      exact ⟨_, ha, hparams, fun h => absurd h (by simp)⟩

theorem parameters_decides (place : FieldPath) {a : Action} {entries : Table Value}
    (ha : ((entries.get? "action").bind Data.text?).bind Action.ofName? = some a) :
    Decides (parameters place a entries) (Command.HasParams entries a) := by
  rw [← isReadable_standIn_iff ha]
  unfold parameters Command.IsReadable
  simp only
  split
  · rename_i c hc
    exact .nil ⟨c, hc⟩
  · rename_i reason hreason
    refine .error rfl ?_
    rintro ⟨c, hc⟩
    exact absurd (hreason.symm.trans hc) (by simp)

/-- The check of the nested commands that a table has to have for an action. -/
theorem nested_decides (place : FieldPath) {a : Action} {entries : Table Value}
    (h : ∀ v, entries.get? "behaviors" = some v → ∀ place, Decides (commands place v)
      (∃ items, v = .list items ∧ ∀ x ∈ items, Command.IsReadable x)) :
    Decides (match a.nestedList? with
      | some field => commandsUnder field (place ++ [.key field]) entries
      | none => [])
      (a.nestedList?.isSome → ∃ items, entries.get? "behaviors" = some (.list items) ∧
        ∀ x ∈ items, Command.IsReadable x) := by
  cases a with
  | transmit =>
    simp only [Action.nestedList?, Option.isSome_some, forall_const, commandsUnder_eq]
    cases hv : entries.get? "behaviors" with
    | none => exact .error rfl (by simp)
    | some v =>
      simp only [Option.some.injEq]
      exact h v hv _
  | _ => exact .nil fun hn => absurd hn (by simp [Action.nestedList?])

theorem command_decides_of_table?_eq_none (place : FieldPath) {v : Value} (hv : v.table? = none) :
    Decides (command place v) (Command.IsReadable v) := by
  rw [command_of_table?_eq_none place v hv]
  exact .error rfl (Command.not_isReadable_of_table?_eq_none hv)

/-- **The check of a command finds nothing if it can be read, and an error if not.** -/
theorem command_decides (place : FieldPath) (v : Value) :
    Decides (command place v) (Command.IsReadable v) := by
  -- The commands in a list are two steps down, so the check of a list is carried along.
  have h : (∀ place, Decides (command place v) (Command.IsReadable v)) ∧
      ∀ place, Decides (commands place v)
        (∃ items, v = .list items ∧ ∀ x ∈ items, Command.IsReadable x) := by
    induction v using Data.induction with
    | table entries ih =>
      refine ⟨fun place => ?_, fun place => commands_decides place fun _ h => absurd h (by simp)⟩
      rw [command]
      cases hnamed : entries.get? "action" with
      | none =>
        refine .error rfl ?_
        rw [Command.isReadable_table_iff, hnamed]
        rintro ⟨a, ha, -⟩
        exact absurd ha (by simp)
      | some named =>
        simp only
        cases ha : named.text?.bind Action.ofName? with
        | none =>
          refine .error rfl ?_
          rw [Command.isReadable_table_iff, hnamed, Option.bind_some, ha]
          rintro ⟨a, ha, -⟩
          exact absurd ha (by simp)
        | some a =>
          have hact : ((entries.get? "action").bind Data.text?).bind Action.ofName? = some a := by
            rw [hnamed, Option.bind_some, ha]
          refine ((nested_decides place fun v hv => (ih _ (Table.mem_of_get? hv)).2).append
            (parameters_decides place hact)).congr ?_
          rw [Command.isReadable_table_iff, hact]
          simp only [Option.some.injEq, exists_eq_left']
          exact and_comm
    | list items ih =>
      refine ⟨fun place => command_decides_of_table?_eq_none place rfl,
        fun place => commands_decides place fun items' h x hx => ?_⟩
      obtain rfl := Data.list.inj h
      exact (ih x hx).1
    | _ =>
      exact ⟨fun place => command_decides_of_table?_eq_none place rfl,
        fun place => commands_decides place fun _ h => absurd h (by simp)⟩
  exact h.1 place

/-! ## Nodes -/

theorem childrenFrom_eq (place : FieldPath) (i : Nat) (items : List Value) :
    childrenFrom place i items = itemsFrom node place i items := by
  induction items generalizing i with
  | nil => rfl
  | cons v items ih => rw [childrenFrom, itemsFrom, ih]

theorem childList_eq (place : FieldPath) (field : String) (entries : Table Value) :
    childList place field entries =
      match entries.get? field with
      | some v => children (place ++ [.key field]) v
      | none => remark place (.lacks field) := by
  induction entries with
  | nil => rfl
  | cons e rest ih =>
    obtain ⟨k, v⟩ := e
    unfold childList
    rw [Table.get?_cons]
    split
    · rfl
    · exact ih

theorem slotted_eq (place : FieldPath) (s : Slot) (entries : Table Value) :
    slotted place s entries =
      match entries.get? s.field with
      | some v => node (place ++ [.key s.field]) v
      | none => remarkIf (s.required = true) place (.lacks s.field) := by
  induction entries with
  | nil => rfl
  | cons e rest ih =>
    obtain ⟨k, v⟩ := e
    unfold slotted
    rw [Table.get?_cons]
    split
    · rfl
    · exact ih

theorem kindOf?_withStandIns (kind : NodeKind) (entries : Table Value) :
    kindOf? (.table (withStandIns kind entries)) = kindOf? (.table entries) := by
  rw [kindOf?_table, kindOf?_table]
  have hget : (withStandIns kind entries).get? "type" = entries.get? "type" := by
    cases kind <;> simp [withStandIns, NodeKind.layout, NodeKind.plainLayout]
  rw [hget]

/-- What is said of a node's own fields is about the node with the stand-ins. -/
theorem ownFields_decides (place : FieldPath) {kind : NodeKind} {entries : Table Value}
    (hkind : kindOf? (.table entries) = some kind) :
    Decides (ownFields place kind entries) (Fits kind (withStandIns kind entries)) := by
  rw [← assembled_ok_iff]
  unfold ownFields
  rw [read_table ((kindOf?_withStandIns kind entries).trans hkind)]
  cases hn : assembled kind (withStandIns kind entries) with
  | error reason => exact .error rfl (by simp)
  | ok n =>
    have hknown := (reflects_of_assembled hn).known
    rw [Node.orUnknown]
    cases n with
    | unknown declared raw reason => exact absurd hknown (by simp [Node.isUnknown])
    | _ => exact .nil ⟨_, rfl⟩

/-- A stand-in has the place of something that the kind may have. -/
theorem closed_withStandIns_iff (kind : NodeKind) (entries : Table Value) :
    (∀ k ∈ (withStandIns kind entries).keys, k ∈ kind.keys) ↔
      ∀ k ∈ entries.keys, k ∈ kind.keys := by
  cases kind <;>
    simp [withStandIns, NodeKind.layout, NodeKind.plainLayout, NodeKind.keys, Table.mem_keys_set]

/-- A list of children stands for the children. -/
theorem get?_withStandIns_of_listField {kind : NodeKind} {field : String}
    (h : kind.layout.listField = some field) (entries : Table Value) :
    (withStandIns kind entries).get? field = some (.list []) := by
  cases kind with
  | control c =>
    obtain rfl := Option.some.inj h
    simp [withStandIns, NodeKind.layout, NodeKind.plainLayout]
  | _ => exact absurd h (by simp [NodeKind.layout, NodeKind.plainLayout])

/-- What a slot is filled with stands for the child in it. -/
theorem get?_withStandIns_of_slot {kind : NodeKind} {s : Slot} (hs : s ∈ kind.layout.slots)
    (entries : Table Value) :
    (withStandIns kind entries).get? s.field = some (.table s.filler) := by
  cases hs using NodeKind.slot_cases <;> simp [withStandIns, NodeKind.layout]

/-- Of a node's own fields, an empty list stands for the commands of an action. -/
theorem ownFits_iff_withStandIns (kind : NodeKind) (entries : Table Value) :
    OwnFits entries kind ↔ OwnFits (withStandIns kind entries) kind ∧
      (kind = .action → ∃ items, entries.get? "behaviors" = some (.list items) ∧
        ∀ c ∈ items, Command.IsReadable c) := by
  cases kind <;> simp [OwnFits, withStandIns, NodeKind.layout, NodeKind.plainLayout]

/-- A table fits a kind iff it does so with the stand-ins and has, in their places, a list of
children, the children that must be there and a list of commands. -/
theorem fits_iff_withStandIns (kind : NodeKind) (entries : Table Value) :
    Fits kind entries ↔ Fits kind (withStandIns kind entries) ∧
      (∀ field, kind.layout.listField = some field →
        ∃ items, entries.get? field = some (.list items)) ∧
      (∀ s ∈ kind.layout.slots, s.required = true → ∃ v, entries.get? s.field = some v) ∧
      (kind = .action → ∃ items, entries.get? "behaviors" = some (.list items) ∧
        ∀ c ∈ items, Command.IsReadable c) := by
  have hkeys := closed_withStandIns_iff kind entries
  have hown := ownFits_iff_withStandIns kind entries
  constructor
  · intro h
    obtain ⟨hown', hcommands⟩ := hown.mp h.own
    refine ⟨⟨hkeys.mpr h.closed, fun field hfield => ?_, fun s hs _ => ?_, hown'⟩,
      h.listed, h.filled, hcommands⟩
    · exact ⟨[], get?_withStandIns_of_listField hfield entries⟩
    · exact ⟨_, get?_withStandIns_of_slot hs entries⟩
  · rintro ⟨hstub, hlisted, hfilled, hcommands⟩
    exact ⟨hkeys.mp hstub.closed, hlisted, hfilled, hown.mpr ⟨hstub.own, hcommands⟩⟩

theorem itemsFrom_errorFree_iff {check : FieldPath → Value → List Remark} (place : FieldPath)
    (i : Nat) {items : List Value} {P : Value → Prop}
    (h : ∀ v ∈ items, ∀ place, ErrorFree (check place v) ↔ P v) :
    ErrorFree (itemsFrom check place i items) ↔ ∀ v ∈ items, P v := by
  induction items generalizing i with
  | nil => simp [itemsFrom]
  | cons v items ih =>
    rw [List.forall_mem_cons] at h
    rw [itemsFrom, errorFree_append, h.1, ih (i + 1) h.2, List.forall_mem_cons]

/-- What is said of the list of children that a node of a kind should have. -/
def listed (place : FieldPath) (kind : NodeKind) (entries : Table Value) : List Remark :=
  match kind.layout.listField with
  | some field => childList place field entries
  | none => []

/-- The children of a node that has a list of them, once it is known what the check of each child
comes to. -/
theorem errorFree_listed_iff (place : FieldPath) (kind : NodeKind) (entries : Table Value)
    {P : Value → Prop}
    (h : ∀ v ∈ (childList? kind entries).getD [], ∀ place, ErrorFree (node place v) ↔ P v) :
    ErrorFree (listed place kind entries) ↔
      (∀ field, kind.layout.listField = some field →
        ∃ items, entries.get? field = some (.list items)) ∧
      ∀ v ∈ (childList? kind entries).getD [], P v := by
  unfold childList? at h
  unfold listed childList?
  cases hfield : kind.layout.listField with
  | none => simp
  | some field =>
    simp only [hfield, Option.bind_some, Option.some.injEq, forall_eq', childList_eq] at h ⊢
    cases hv : entries.get? field with
    | none => simp [Problem.severity]
    | some v =>
      rw [hv] at h
      cases v with
      | list items =>
        have hitems : ∀ v ∈ items, ∀ place, ErrorFree (node place v) ↔ P v := h
        simp only [children, childrenFrom_eq]
        rw [itemsFrom_errorFree_iff _ 0 hitems]
        simp [Data.list?]
      | _ => simp [children, Problem.severity]

/-- The child in a slot. -/
theorem errorFree_slotted_iff (place : FieldPath) (s : Slot) (entries : Table Value)
    {P : Value → Prop}
    (h : ∀ v, entries.get? s.field = some v → ∀ place, ErrorFree (node place v) ↔ P v) :
    ErrorFree (slotted place s entries) ↔
      (s.required = true → ∃ v, entries.get? s.field = some v) ∧
        ∀ v, entries.get? s.field = some v → P v := by
  rw [slotted_eq]
  cases hv : entries.get? s.field with
  | none =>
    unfold remarkIf
    cases s.required <;> simp [Problem.severity]
  | some v => simp [h v hv]

/-- The children in all slots. -/
theorem errorFree_slots_iff (place : FieldPath) (slots : List Slot) (entries : Table Value)
    {P : Value → Prop}
    (h : ∀ v ∈ slots.filterMap fun s => entries.get? s.field,
      ∀ place, ErrorFree (node place v) ↔ P v) :
    ErrorFree (slots.flatMap fun s => slotted place s entries) ↔
      (∀ s ∈ slots, s.required = true → ∃ v, entries.get? s.field = some v) ∧
        ∀ v ∈ slots.filterMap fun s => entries.get? s.field, P v := by
  have hslot : ∀ s ∈ slots, ErrorFree (slotted place s entries) ↔
      (s.required = true → ∃ v, entries.get? s.field = some v) ∧
        ∀ v, entries.get? s.field = some v → P v := by
    intro s hs
    exact errorFree_slotted_iff place s entries fun v hv =>
      h v (List.mem_filterMap.mpr ⟨s, hs, hv⟩)
  rw [errorFree_flatMap]
  simp only [List.mem_filterMap]
  constructor
  · intro h
    refine ⟨fun s hs => ((hslot s hs).mp (h s hs)).1, ?_⟩
    rintro v ⟨s, hs, hv⟩
    exact ((hslot s hs).mp (h s hs)).2 v hv
  · rintro ⟨hfilled, hbelow⟩ s hs
    exact (hslot s hs).mpr ⟨hfilled s hs, fun v hv => hbelow v ⟨s, hs, hv⟩⟩

/-- The check of the commands of an action node. -/
theorem actionCommands_decides (place : FieldPath) (kind : NodeKind) (entries : Table Value) :
    Decides (if kind = .action then
        commandsUnder "behaviors" (place ++ [.key "behaviors"]) entries
      else [])
      (kind = .action → ∃ items, entries.get? "behaviors" = some (.list items) ∧
        ∀ c ∈ items, Command.IsReadable c) := by
  split
  · rename_i hkind
    rw [commandsUnder_eq]
    cases hv : entries.get? "behaviors" with
    | none => exact .error rfl (by simp [hkind])
    | some v =>
      refine (commands_decides _ fun items _ x _ place => command_decides place x).congr ?_
      simp [hkind]
  · rename_i hkind
    exact .nil fun h => absurd h hkind

/-- What is said of a table of no known kind. -/
theorem errorFree_foreign_iff (place : FieldPath) {entries : Table Value}
    (hkind : kindOf? (.table entries) = none) :
    ErrorFree (node place (.table entries)) ↔ Sound (.table entries) := by
  rw [sound_foreign_iff hkind, node]
  rw [kindOf?_table] at hkind
  cases htype : entries.get? "type" with
  | none => simp [Problem.severity]
  | some d =>
    cases d with
    | text name =>
      rw [htype] at hkind
      simp only [Option.bind_some, Data.text?] at hkind
      simp [hkind, Problem.severity]
    | _ => simp [Problem.severity]

/-- What is said of a table of a known kind. -/
theorem node_known (place : FieldPath) {entries : Table Value} {kind : NodeKind}
    (hkind : kindOf? (.table entries) = some kind) :
    node place (.table entries) =
      ownFields place kind entries ++
        listed place kind entries ++
        (kind.layout.slots.flatMap fun s => slotted place s entries) ++
        (if kind = .action then
          commandsUnder "behaviors" (place ++ [.key "behaviors"]) entries
        else []) := by
  obtain ⟨name, hname, hkind⟩ := Option.bind_eq_some_iff.mp hkind
  obtain ⟨d, hd, htext⟩ := Option.bind_eq_some_iff.mp hname
  cases d with
  | text s =>
    obtain rfl := Option.some.inj htext
    have htype : entries.get? "type" = some (.text s) := hd
    rw [node, htype]
    simp only [hkind]
    rfl
  | _ => exact absurd htext (by simp [Data.text?])

/-- **The check of a tree finds no error iff the tree is sound.** -/
theorem errorFree_node_iff (place : FieldPath) (v : Value) :
    ErrorFree (node place v) ↔ Sound v := by
  induction v using Tree.induction generalizing place with
  | leaf v hv =>
    have hnode : node place v = remark place .notTable := by
      cases v <;> first | rfl | exact absurd hv (by simp [Data.table?])
    rw [hnode, errorFree_remark]
    constructor
    · intro h
      exact absurd h (by simp [Problem.severity])
    · rintro (_ | _) <;> exact absurd hv (by simp [Data.table?])
  | node entries ih =>
    cases hkind : kindOf? (.table entries) with
    | none => exact errorFree_foreign_iff place hkind
    | some kind =>
      have hlist := errorFree_listed_iff place kind entries fun v hv place =>
        ih kind v (List.mem_append_left _ hv) place
      have hslots := errorFree_slots_iff place kind.layout.slots entries fun v hv place =>
        ih kind v (List.mem_append_right _ hv) place
      rw [node_known place hkind, sound_known_iff hkind, fits_iff_withStandIns]
      simp only [errorFree_append, hlist, hslots, (ownFields_decides place hkind).errorFree_iff,
        (actionCommands_decides place kind entries).errorFree_iff, childValues,
        List.forall_mem_append]
      tauto

/-! ## Counting -/

theorem length_itemsFrom {check : FieldPath → Value → List Remark} (place : FieldPath) (i : Nat)
    {items : List Value} {count : Value → Nat}
    (h : ∀ v ∈ items, ∀ place, (check place v).length = count v) :
    (itemsFrom check place i items).length = (items.map count).sum := by
  induction items generalizing i with
  | nil => rfl
  | cons v items ih =>
    rw [List.forall_mem_cons] at h
    rw [itemsFrom, List.length_append, h.1, ih (i + 1) h.2, List.map_cons, List.sum_cons]

/-- The children in the list of a node give as many remarks as each of them does. -/
theorem length_listed (place : FieldPath) {kind : NodeKind} {entries : Table Value}
    {count : Value → Nat} (hfits : Fits kind entries)
    (h : ∀ v ∈ (childList? kind entries).getD [], ∀ place, (node place v).length = count v) :
    (listed place kind entries).length = (((childList? kind entries).getD []).map count).sum := by
  unfold childList? at h
  unfold listed childList?
  cases hfield : kind.layout.listField with
  | none => rfl
  | some field =>
    obtain ⟨items, hitems⟩ := hfits.listed field hfield
    simp only [hfield, Option.bind_some, childList_eq, hitems] at h ⊢
    rw [children, childrenFrom_eq]
    exact length_itemsFrom _ 0 h

/-- The children in slots give as many remarks as each of them does. -/
theorem length_slots (place : FieldPath) {slots : List Slot} {entries : Table Value}
    {count : Value → Nat}
    (hfilled : ∀ s ∈ slots, s.required = true → ∃ v, entries.get? s.field = some v)
    (h : ∀ v ∈ slots.filterMap fun s => entries.get? s.field,
      ∀ place, (node place v).length = count v) :
    (slots.flatMap fun s => slotted place s entries).length =
      ((slots.filterMap fun s => entries.get? s.field).map count).sum := by
  induction slots with
  | nil => rfl
  | cons s slots ih =>
    rw [List.forall_mem_cons] at hfilled
    rw [List.flatMap_cons, List.length_append, slotted_eq]
    cases hv : entries.get? s.field with
    | none =>
      have hoptional : ¬s.required = true := by
        intro hr
        obtain ⟨v, hsome⟩ := hfilled.1 hr
        exact absurd (hv.symm.trans hsome) (by simp)
      simp only [List.filterMap_cons, hv] at h
      simp only [List.filterMap_cons, hv, remarkIf, if_neg hoptional, List.length_nil, Nat.zero_add]
      exact ih hfilled.2 h
    | some v =>
      simp only [List.filterMap_cons, hv, List.forall_mem_cons] at h
      simp only [List.filterMap_cons, hv, List.map_cons, List.sum_cons, h.1, ih hfilled.2 h.2]

/-- **On a sound tree, the check remarks on every unknown node once.** -/
theorem length_node (place : FieldPath) {v : Value} (hv : Sound v) :
    (node place v).length = (Node.read v).unknownCount := by
  induction v using Tree.induction generalizing place with
  | leaf v hleaf => rcases hv with _ | _ <;> exact absurd hleaf (by simp [Data.table?])
  | node entries ih =>
    cases hkind : kindOf? (.table entries) with
    | none =>
      obtain ⟨name, hname⟩ := (sound_foreign_iff hkind).mp hv
      obtain ⟨reason, hread⟩ := read_foreign hkind
      rw [kindOf?_table, hname] at hkind
      simp only [Option.bind_some, Data.text?] at hkind
      rw [hread, node, hname]
      simp only [hkind]
      rfl
    | some kind =>
      obtain ⟨hfits, hbelow⟩ := (sound_known_iff hkind).mp hv
      obtain ⟨hstub, -, -, hcommands⟩ := (fits_iff_withStandIns kind entries).mp hfits
      obtain ⟨n, hn⟩ := assembled_of_fits hfits
      obtain ⟨-, hknown, hchildren⟩ := reflects_of_assembled hn
      have hcount : ∀ v ∈ childValues kind entries, ∀ place,
          (node place v).length = (Node.read v).unknownCount :=
        fun v hv place => ih kind v hv place (hbelow v hv)
      have hlist := length_listed place hfits fun v hv =>
        hcount v (List.mem_append_left _ hv)
      have hslots := length_slots place hfits.filled fun v hv =>
        hcount v (List.mem_append_right _ hv)
      rw [node_known place hkind, (ownFields_decides place hkind).eq_nil hstub,
        (actionCommands_decides place kind entries).eq_nil hcommands, List.nil_append,
        List.append_nil, List.length_append, hlist, hslots, read_table hkind, hn, Node.orUnknown,
        Node.unknownCount_eq, hchildren, List.map_map, hknown]
      simp [childValues, Function.comp_def]

/-! ## Verdicts -/

/-- The remarks on a mob with nothing but a name and a behavior tree are those on the tree. -/
theorem document_nameAndBehavior (b : Value) :
    document false (.table [("name", .text "m"), ("behavior", b)]) = node [.key "behavior"] b := by
  have hknown : unknownFields [("name", .text "m"), ("behavior", b)] = [] := by
    unfold unknownFields
    rw [Record.unknownKeys_eq_nil_iff.mpr, List.map_nil]
    intro k hk
    simp only [Table.keys_cons, Table.keys_nil, List.mem_cons, List.not_mem_nil, or_false] at hk
    rcases hk with rfl | rfl <;> decide
  simp [document, hknown, name, remarkIf, fieldChecks, pointFields, positiveFields, entry]

end Check

namespace Verdict

theorem errorCount_eq_zero_iff {v : Verdict} : v.errorCount = 0 ↔ Check.ErrorFree v.remarks := by
  unfold errorCount count Check.ErrorFree
  rw [List.countP_eq_zero]
  constructor
  · intro h r hr
    have hne := h r hr
    cases hs : r.problem.severity with
    | error => exact absurd hs (by simpa using hne)
    | warning => rfl
  · intro h r hr
    simp [h r hr]

theorem warningCount_of_errorFree {v : Verdict} (h : Check.ErrorFree v.remarks) :
    v.warningCount = v.remarks.length := by
  unfold warningCount count
  rw [List.countP_eq_length]
  intro r hr
  simp [h r hr]

end Verdict

/-- A verdict lists the remarks on the document. -/
theorem remarks_of_validate {isPatch : Bool} {d : Value} {v : Verdict}
    (h : validate isPatch d = .ok v) : v.remarks = Check.document isPatch d := by
  unfold validate at h
  simp only at h
  split at h
  · exact absurd h (by simp)
  · rw [← Except.ok.inj h]

theorem NodeKind.ofName?_eq_none_iff {name : String} :
    NodeKind.ofName? name = none ↔ ∀ kind : NodeKind, kind.name ≠ name := by
  constructor
  · rintro h kind rfl
    exact absurd h (by simp)
  · intro h
    cases hk : NodeKind.ofName? name with
    | none => rfl
    | some kind => exact absurd (NodeKind.name_of_ofName? hk) (h kind)

/-- **Checks, reader and compiler agree on which behavior trees are readable.** Of a mob with a
name and the tree `b`, whenever there is a verdict at all: no remark is made iff no node is
unknown; no error is found iff every unknown node declares a type that is none of the kinds; and
then there are as many warnings as compiling reports unknown nodes. -/
theorem Verdict.agrees_with_read {b : Value} {v : Verdict}
    (h : validate false (.table [("name", .text "m"), ("behavior", b)]) = .ok v) :
    (v.remarks = [] ↔ ∀ u ∈ (Node.read b).nodes, u.isUnknown = false) ∧
      (v.errorCount = 0 ↔ ∀ u ∈ (Node.read b).nodes, u.isUnknown = true →
        ∃ name, u.declared? = some name ∧ ∀ kind : NodeKind, kind.name ≠ name) ∧
      (v.errorCount = 0 → v.warningCount =
        (Node.read b).compile.diagnostics.countP fun d => d.finding.code = "unknown-node") := by
  have hremarks : v.remarks = Check.node [.key "behavior"] b := by
    rw [remarks_of_validate h, Check.document_nameAndBehavior]
  have herrors : v.errorCount = 0 ↔ Tree.Sound b := by
    rw [Verdict.errorCount_eq_zero_iff, hremarks, Check.errorFree_node_iff]
  have hlength : Tree.Sound b → v.remarks.length = (Node.read b).unknownCount := by
    intro hsound
    rw [hremarks, Check.length_node _ hsound]
  refine ⟨?_, ?_, ?_⟩
  · rw [← Node.unknownCount_eq_zero_iff]
    constructor
    · intro hnil
      have hsound : Tree.Sound b := by
        rw [← herrors, Verdict.errorCount_eq_zero_iff, hnil]
        exact Check.errorFree_nil
      rw [← hlength hsound, hnil, List.length_nil]
    · intro hzero
      have hsound : Tree.Sound b := (Tree.sound_iff b).mpr fun u hu hunknown =>
        absurd (Node.unknownCount_eq_zero_iff.mp hzero u hu) (by simp [hunknown])
      rw [← List.length_eq_zero_iff, hlength hsound, hzero]
  · rw [herrors, Tree.sound_iff]
    simp only [NodeKind.ofName?_eq_none_iff]
  · intro hzero
    have hsound := herrors.mp hzero
    rw [Verdict.warningCount_of_errorFree (Verdict.errorCount_eq_zero_iff.mp hzero),
      hlength hsound, ← Node.countP_findings]
    rfl

/-- The agreement on a sequence with a child of a type that is not known. -/
theorem Verdict.agrees_with_read_foreignChild :
    ∃ v, validate false (.table [("name", .text "m"), ("behavior", .table
        [("type", .text "Sequence"), ("children", .list [.table [("type", .text "Orbit")]])])]) =
          .ok v ∧
      v.errorCount = 0 ∧ v.warningCount = 1 := by
  have hvalid : validate false (.table [("name", .text "m"), ("behavior", .table
      [("type", .text "Sequence"), ("children", .list [.table [("type", .text "Orbit")]])])]) =
        .ok ⟨[⟨[.key "behavior", .key "children", .index 0, .key "type"],
          .unknownType "Orbit"⟩]⟩ := rfl
  refine ⟨_, hvalid, rfl, ?_⟩
  rw [(Verdict.agrees_with_read hvalid).2.2 rfl]
  rfl

end Bestiary
