import Bestiary.Proofs.Data.Reordered
import Bestiary.Proofs.Mob.Check
import Bestiary.Tree.CommandEdit

/-!
# When there is a verdict

Of all remarks that the checks make, one kind may be impossible to word: that an action is unknown,
if what stands in place of its name cannot be shown. So there is a verdict on a document iff the
actions of the commands in its behavior tree can be shown.

* `Tree.NamesAction` and `Tree.HoldsAction` say which actions the commands of a tree name.
* `Value.not_isShowable_iff` says which values cannot be shown.
* `Check.wordable_node_iff` and `Check.wordable_document_iff` say when all remarks can be worded,
  `exists_validate_iff` when there is a verdict.
-/

namespace Bestiary

namespace Value

/-- A value that cannot be shown: a table with an entry that hides its text, or a list with such a
value in it. -/
inductive Unshowable : Value → Prop
  | table {entries : Table Value} (h : displayKey ∈ entries.keys) : Unshowable (.table entries)
  | list {items : List Value} {v : Value} (hv : v ∈ items) (h : Unshowable v) :
      Unshowable (.list items)

/-- **Only tables with an entry of one key cannot be shown**, and lists with such a table. -/
theorem not_isShowable_iff (v : Value) : ¬v.isShowable = true ↔ v.Unshowable := by
  induction v using Data.induction with
  | list items ih =>
    rw [isShowable_list_iff]
    push Not
    constructor
    · rintro ⟨v, hv, h⟩
      exact .list hv ((ih v hv).mp h)
    · rintro (_ | ⟨hv, h⟩)
      exact ⟨_, hv, (ih _ hv).mpr h⟩
  | table entries ih =>
    have hshown : isShowable (.table entries) = !entries.has displayKey := by
      rw [isShowable, display?]
      cases Table.has entries displayKey <;> rfl
    rw [hshown, Bool.not_eq_true', Bool.not_eq_false, Table.has_eq_true_iff]
    refine ⟨.table, fun h => ?_⟩
    cases h with
    | table h => exact h
  | alien e => exact e.elim
  | _ => exact iff_of_false (by simp [isShowable, display?]) (by rintro ⟨⟩)

end Value

/-! ## The actions of a tree -/

namespace Tree

/-- A command names an action: its own, or that of a command nested in it. -/
inductive NamesAction : Value → Value → Prop
  | own {entries : Table Value} {a : Value} (h : entries.get? "action" = some a) :
      NamesAction (.table entries) a
  | nested {entries : Table Value} {key : String} {items : List Value} {c a : Value}
      (hkey : nestedKey? entries = some key) (hitems : entries.get? key = some (.list items))
      (hc : c ∈ items) (h : NamesAction c a) : NamesAction (.table entries) a

/-- A command of an action node of a tree names an action. -/
inductive HoldsAction : Value → Value → Prop
  | here {entries : Table Value} {items : List Value} {c a : Value}
      (hkind : kindOf? (.table entries) = some .action)
      (hitems : entries.get? commandsKey = some (.list items)) (hc : c ∈ items)
      (h : NamesAction c a) : HoldsAction (.table entries) a
  | child {entries : Table Value} {kind : NodeKind} {c a : Value}
      (hkind : kindOf? (.table entries) = some kind) (hc : c ∈ childValues kind entries)
      (h : HoldsAction c a) : HoldsAction (.table entries) a

end Tree

namespace Check

open Bestiary.Tree

/-! ## Remarks that can be worded -/

/-- All remarks can be worded. -/
def Wordable (remarks : List Remark) : Prop := ∀ r ∈ remarks, r.problem.isWordable = true

@[simp] theorem wordable_nil : Wordable [] := fun _ h => absurd h List.not_mem_nil

@[simp] theorem wordable_append {a b : List Remark} :
    Wordable (a ++ b) ↔ Wordable a ∧ Wordable b := List.forall_mem_append

@[simp] theorem wordable_remark {place : FieldPath} {p : Problem} :
    Wordable (remark place p) ↔ p.isWordable = true := List.forall_mem_singleton

theorem wordable_remarkIf {c : Prop} [Decidable c] {place : FieldPath} {p : Problem}
    (h : p.isWordable = true) : Wordable (remarkIf c place p) := by
  unfold remarkIf
  split
  · exact wordable_remark.mpr h
  · exact wordable_nil

theorem wordable_flatMap {α : Type} {l : List α} {f : α → List Remark} :
    Wordable (l.flatMap f) ↔ ∀ a ∈ l, Wordable (f a) := by
  unfold Wordable
  simp only [List.mem_flatMap]
  exact ⟨fun h a ha r hr => h r ⟨a, ha, hr⟩, fun h r ⟨a, ha, hr⟩ => h a ha r hr⟩

theorem wordable_itemsFrom_iff {check : FieldPath → Value → List Remark} {P : Value → Prop}
    {items : List Value} (h : ∀ v ∈ items, ∀ place, Wordable (check place v) ↔ P v)
    (place : FieldPath) (i : Nat) :
    Wordable (itemsFrom check place i items) ↔ ∀ v ∈ items, P v := by
  induction items generalizing i with
  | nil => simp [itemsFrom]
  | cons v items ih =>
    rw [List.forall_mem_cons] at h
    rw [itemsFrom, wordable_append, h.1, ih h.2, List.forall_mem_cons]

/-! ## Commands -/

theorem wordable_parameters (place : FieldPath) (a : Action) (entries : Table Value) :
    Wordable (parameters place a entries) := by
  unfold parameters
  simp only
  split
  · exact wordable_nil
  · exact wordable_remark.mpr rfl

/-- The remarks on a list of commands, once it is known what those on each command come to. -/
theorem wordable_commands_iff {P : Value → Prop} {v : Value}
    (h : ∀ c ∈ v.list?.getD [], ∀ place, Wordable (command place c) ↔ P c) (place : FieldPath) :
    Wordable (commands place v) ↔ ∀ items, v = .list items → ∀ c ∈ items, P c := by
  cases v with
  | list items =>
    have hitems : ∀ c ∈ items, ∀ place, Wordable (command place c) ↔ P c := h
    rw [commands, commandsFrom_eq, wordable_itemsFrom_iff hitems]
    exact ⟨fun hall _ heq => Data.list.inj heq ▸ hall, fun hall => hall items rfl⟩
  | _ => exact iff_of_true (wordable_remark.mpr rfl) fun _ heq => absurd heq (by simp)

theorem wordable_commandsUnder_iff {P : Value → Prop} {key : String} {entries : Table Value}
    (h : ∀ v, entries.get? key = some v → ∀ c ∈ v.list?.getD [],
      ∀ place, Wordable (command place c) ↔ P c) (place : FieldPath) :
    Wordable (commandsUnder key place entries) ↔
      ∀ items, entries.get? key = some (.list items) → ∀ c ∈ items, P c := by
  rw [commandsUnder_eq]
  cases hv : entries.get? key with
  | none => exact iff_of_true (wordable_remark.mpr rfl) fun _ heq => absurd heq (by simp)
  | some v => simpa using wordable_commands_iff (h v hv) place

/-- The remarks on the commands that are nested in one. -/
theorem wordable_nested_iff {P : Value → Prop} {key? : Option String} {entries : Table Value}
    (h : ∀ key v, entries.get? key = some v → ∀ c ∈ v.list?.getD [],
      ∀ place, Wordable (command place c) ↔ P c) (place : FieldPath) :
    Wordable (match key? with
      | some key => commandsUnder key (place ++ [.key key]) entries
      | none => []) ↔
      ∀ key, key? = some key → ∀ items, entries.get? key = some (.list items) →
        ∀ c ∈ items, P c := by
  cases key? with
  | none => simp
  | some key =>
    simp only [Option.some.injEq, forall_eq']
    exact wordable_commandsUnder_iff (h key) _

/-- The actions that a command names, by the two ways to name one. -/
theorem forall_namesAction_iff {P : Value → Prop} {entries : Table Value} :
    (∀ a, NamesAction (.table entries) a → P a) ↔
      (∀ a, entries.get? "action" = some a → P a) ∧
        ∀ key, nestedKey? entries = some key → ∀ items, entries.get? key = some (.list items) →
          ∀ c ∈ items, ∀ a, NamesAction c a → P a := by
  constructor
  · exact fun h => ⟨fun a ha => h a (.own ha),
      fun key hkey items hitems c hc a ha => h a (.nested hkey hitems hc ha)⟩
  · rintro ⟨hown, hnested⟩ a (ha | ⟨hkey, hitems, hc, ha⟩)
    · exact hown a ha
    · exact hnested _ hkey _ hitems _ hc a ha

/-- **The remarks on a command can be worded** iff the actions that it names can be shown. -/
theorem wordable_command_iff (place : FieldPath) (v : Value) :
    Wordable (command place v) ↔ ∀ a, NamesAction v a → a.isShowable = true := by
  -- The commands in a list are two steps down, so the items of a list are carried along.
  have h : (∀ place, Wordable (command place v) ↔ ∀ a, NamesAction v a → a.isShowable = true) ∧
      ∀ c ∈ v.list?.getD [], ∀ place,
        Wordable (command place c) ↔ ∀ a, NamesAction c a → a.isShowable = true := by
    induction v using Data.induction with
    | list items ih =>
      refine ⟨fun place => iff_of_true ?_ (by rintro _ ⟨⟩), fun c hc => (ih c hc).1⟩
      rw [command_of_table?_eq_none place _ rfl]
      exact wordable_remark.mpr rfl
    | table entries ih =>
      refine ⟨fun place => ?_, fun c hc => absurd hc List.not_mem_nil⟩
      rw [command, forall_namesAction_iff]
      cases hnamed : entries.get? "action" with
      | none => exact iff_of_true (wordable_remark.mpr rfl) (by simp [nestedKey?, hnamed])
      | some named =>
        simp only [Option.some.injEq, forall_eq']
        cases hknown : named.text?.bind Action.ofName? with
        | none =>
          rw [wordable_remark, Problem.isWordable]
          simp [nestedKey?, hnamed, hknown]
        | some known =>
          have hkey : nestedKey? entries = known.nestedList? := by
            simp [nestedKey?, hnamed, hknown]
          have hshown : Value.isShowable named = true := by
            cases named <;> first | rfl | exact absurd hknown (by simp [Data.text?])
          rw [wordable_append, and_iff_left (wordable_parameters place known entries), hkey,
            and_iff_right hshown]
          exact wordable_nested_iff (fun key v hv => (ih _ (Table.mem_of_get? hv)).2) place
    | alien e => exact e.elim
    | _ =>
      refine ⟨fun place => iff_of_true ?_ (by rintro _ ⟨⟩), fun c hc => absurd hc List.not_mem_nil⟩
      rw [command_of_table?_eq_none place _ rfl]
      exact wordable_remark.mpr rfl
  exact h.1 place

/-! ## Nodes -/

theorem wordable_ownFields (place : FieldPath) (kind : NodeKind) (entries : Table Value) :
    Wordable (ownFields place kind entries) := by
  unfold ownFields
  split
  · exact wordable_remark.mpr rfl
  · exact wordable_nil

theorem wordable_listed_iff {P : Value → Prop} {kind : NodeKind} {entries : Table Value}
    (h : ∀ v ∈ (childList? kind entries).getD [], ∀ place, Wordable (node place v) ↔ P v)
    (place : FieldPath) :
    Wordable (listed place kind entries) ↔ ∀ v ∈ (childList? kind entries).getD [], P v := by
  unfold childList? at h
  unfold listed childList?
  cases hfield : kind.layout.listField with
  | none => simp
  | some field =>
    simp only [hfield, Option.bind_some, childList_eq] at h ⊢
    cases hv : entries.get? field with
    | none => simp [Problem.isWordable]
    | some v =>
      rw [hv] at h
      cases v with
      | list items =>
        have hitems : ∀ v ∈ items, ∀ place, Wordable (node place v) ↔ P v := h
        simp only [children, childrenFrom_eq]
        exact wordable_itemsFrom_iff hitems _ 0
      | _ => simp [children, Problem.isWordable, Data.list?]

theorem wordable_slots_iff {P : Value → Prop} {slots : List Slot} {entries : Table Value}
    (h : ∀ v ∈ slots.filterMap fun s => entries.get? s.field,
      ∀ place, Wordable (node place v) ↔ P v) (place : FieldPath) :
    Wordable (slots.flatMap fun s => slotted place s entries) ↔
      ∀ v ∈ slots.filterMap fun s => entries.get? s.field, P v := by
  have hslot : ∀ s ∈ slots, Wordable (slotted place s entries) ↔
      ∀ v, entries.get? s.field = some v → P v := by
    intro s hs
    rw [slotted_eq]
    cases hv : entries.get? s.field with
    | none => exact iff_of_true (wordable_remarkIf rfl) (by simp)
    | some v => simpa using h v (List.mem_filterMap.mpr ⟨s, hs, hv⟩) _
  rw [wordable_flatMap, forall₂_congr hslot]
  simp only [List.mem_filterMap, forall_exists_index, and_imp]
  exact ⟨fun hall v s hs hv => hall s hs v hv, fun hall s hs v hv => hall v s hs hv⟩

/-- What is said of a table of no known kind can be worded. -/
theorem wordable_foreign (place : FieldPath) {entries : Table Value}
    (hkind : kindOf? (.table entries) = none) : Wordable (node place (.table entries)) := by
  rw [node]
  rw [kindOf?_table] at hkind
  cases htype : entries.get? "type" with
  | none => exact wordable_remark.mpr rfl
  | some d =>
    cases d with
    | text name =>
      rw [htype] at hkind
      simp only [Option.bind_some, Data.text?] at hkind
      simp only [hkind]
      exact wordable_remark.mpr rfl
    | _ => exact wordable_remark.mpr rfl

/-- The actions that the commands of a tree name, by the places where there are commands. -/
theorem forall_holdsAction_iff {P : Value → Prop} {kind : NodeKind} {entries : Table Value}
    (hkind : kindOf? (.table entries) = some kind) :
    (∀ a, HoldsAction (.table entries) a → P a) ↔
      (∀ v ∈ childValues kind entries, ∀ a, HoldsAction v a → P a) ∧
        (kind = .action → ∀ items, entries.get? commandsKey = some (.list items) →
          ∀ c ∈ items, ∀ a, NamesAction c a → P a) := by
  constructor
  · refine fun h => ⟨fun v hv a ha => h a (.child hkind hv ha), ?_⟩
    rintro rfl items hitems c hc a ha
    exact h a (.here hkind hitems hc ha)
  · rintro ⟨hchildren, hcommands⟩ a (⟨haction, hitems, hc, ha⟩ | ⟨hkind', hc, ha⟩)
    · obtain rfl := Option.some.inj (hkind.symm.trans haction)
      exact hcommands rfl _ hitems _ hc a ha
    · obtain rfl := Option.some.inj (hkind.symm.trans hkind')
      exact hchildren _ hc a ha

/-- **The remarks on a tree can be worded** iff the actions that its commands name can be shown. -/
theorem wordable_node_iff (place : FieldPath) (v : Value) :
    Wordable (node place v) ↔ ∀ a, HoldsAction v a → a.isShowable = true := by
  induction v using Tree.induction generalizing place with
  | leaf v hv =>
    have hnode : node place v = remark place .notTable := by
      cases v <;> first | rfl | exact absurd hv (by simp [Data.table?])
    rw [hnode]
    refine iff_of_true (wordable_remark.mpr rfl) fun a ha => ?_
    cases ha <;> exact absurd hv (by simp [Data.table?])
  | node entries ih =>
    cases hkind : kindOf? (.table entries) with
    | none =>
      refine iff_of_true (wordable_foreign place hkind) fun a ha => ?_
      cases ha with
      | here haction => exact absurd (hkind.symm.trans haction) (by simp)
      | child hkind' => exact absurd (hkind.symm.trans hkind') (by simp)
    | some kind =>
      have hlist := wordable_listed_iff (fun v hv place =>
        ih kind v (List.mem_append_left _ hv) place) place
      have hslots := wordable_slots_iff (fun v hv place =>
        ih kind v (List.mem_append_right _ hv) place) place
      have hcommands : Wordable (if kind = .action then
            commandsUnder "behaviors" (place ++ [.key "behaviors"]) entries
          else []) ↔ (kind = .action → ∀ items, entries.get? commandsKey = some (.list items) →
            ∀ c ∈ items, ∀ a, NamesAction c a → a.isShowable = true) := by
        split
        · rename_i haction
          rw [wordable_commandsUnder_iff fun _ _ c _ place => wordable_command_iff place c]
          exact ⟨fun h _ => h, fun h => h haction⟩
        · rename_i haction
          exact iff_of_true wordable_nil fun h => absurd h haction
      rw [node_known place hkind, forall_holdsAction_iff hkind, childValues, List.forall_mem_append]
      simp only [wordable_append, hlist, hslots, hcommands, wordable_ownFields, true_and, and_assoc]

/-! ## Other fields -/

/-- Whatever the check says can be worded. -/
def IsPlain (check : FieldPath → Value → List Remark) : Prop := ∀ place v, Wordable (check place v)

theorem wordable_entry {check : FieldPath → Value → List Remark} (h : IsPlain check)
    (entries : Table Value) (key : String) (place : FieldPath) :
    Wordable (entry entries key check place) := by
  unfold entry
  split
  · exact h _ _
  · exact wordable_nil

theorem wordable_present (entries : Table Value) (key : String) (place : FieldPath) :
    Wordable (present entries key place) := by
  unfold present
  split
  · exact wordable_nil
  · exact wordable_remark.mpr rfl

theorem isPlain_items {check : FieldPath → Value → List Remark} (h : IsPlain check) :
    IsPlain (items check) := by
  intro place v
  unfold items
  split
  · exact (wordable_itemsFrom_iff (P := fun _ => True) (fun v _ place => iff_of_true (h place v)
      trivial) place 0).mpr fun _ _ => trivial
  · exact wordable_remark.mpr rfl

theorem isPlain_positiveInteger : IsPlain positiveInteger := by
  intro place v
  unfold positiveInteger
  split
  · split
    · exact wordable_remarkIf rfl
    · exact wordable_remark.mpr rfl
  · exact wordable_remark.mpr rfl

theorem isPlain_positive : IsPlain positive := by
  intro place v
  unfold positive
  split
  · exact wordable_remarkIf rfl
  · exact wordable_remark.mpr rfl

theorem isPlain_within (least most : Nat) : IsPlain (within least most) := by
  intro place v
  unfold within
  split
  · exact wordable_remarkIf rfl
  · exact wordable_remark.mpr rfl

theorem isPlain_number : IsPlain number := by
  intro place v
  unfold number
  split
  · exact wordable_nil
  · exact wordable_remark.mpr rfl

theorem isPlain_point : IsPlain point := by
  intro place v
  unfold point
  split
  · rename_i x y
    rw [wordable_append]
    constructor
    · cases x <;> simp [Problem.isWordable]
    · cases y <;> simp [Problem.isWordable]
  · exact wordable_remark.mpr rfl
  · exact wordable_remark.mpr rfl

theorem isPlain_side (i : Nat) : IsPlain fun place => side place i := by
  intro place v
  simp only [side]
  split
  · exact wordable_remarkIf rfl
  · exact wordable_remark.mpr rfl

theorem isPlain_measures (name : String) : IsPlain fun place => measures place name := by
  intro place v
  simp only [measures]
  split
  · exact wordable_append.mpr ⟨isPlain_side 0 place _, isPlain_side 1 place _⟩
  · exact wordable_remark.mpr rfl
  · exact wordable_remarkIf rfl
  · exact wordable_remark.mpr rfl
  · exact wordable_nil
  · exact wordable_remark.mpr rfl
  · exact wordable_remark.mpr rfl

theorem isPlain_shape : IsPlain shape := by
  intro place v
  unfold shape
  split
  · exact isPlain_measures _ place _
  · exact wordable_remark.mpr rfl
  · exact wordable_remark.mpr rfl

theorem isPlain_collider : IsPlain collider := by
  intro place v
  unfold collider
  split
  · simp only [wordable_append, wordable_present, wordable_entry isPlain_shape,
      wordable_entry isPlain_point, wordable_entry isPlain_number, and_self]
  · exact wordable_remark.mpr rfl

theorem isPlain_spawner (needed : List String) : IsPlain (spawner needed) := by
  intro place v
  unfold spawner
  split
  · simp only [wordable_append, wordable_present, wordable_entry isPlain_positive,
      wordable_flatMap, implies_true, and_self]
  · exact wordable_remark.mpr rfl

theorem isPlain_spawnerTable (needed : List String) : IsPlain (spawnerTable needed) := by
  intro place v
  unfold spawnerTable
  split
  · exact wordable_flatMap.mpr fun e _ => isPlain_spawner needed _ e.2
  · exact wordable_remark.mpr rfl

theorem isPlain_spawners (needed : List String) : IsPlain (spawners needed) := by
  intro place v
  unfold spawners
  split
  · exact wordable_entry (isPlain_spawnerTable needed) _ _ _
  · exact wordable_remark.mpr rfl

theorem isPlain_joint : IsPlain joint := by
  intro place v
  unfold joint
  split
  · exact wordable_append.mpr ⟨wordable_present _ _ _, wordable_present _ _ _⟩
  · exact wordable_remark.mpr rfl

theorem isPlain_decoration : IsPlain decoration := by
  intro place v
  unfold decoration
  split
  · refine wordable_append.mpr ⟨wordable_remarkIf rfl, ?_⟩
    split
    · exact wordable_nil
    · exact wordable_remark.mpr rfl
    · exact wordable_remark.mpr rfl
  · exact wordable_remark.mpr rfl
  · exact wordable_remark.mpr rfl

/-- Of the fields of a mob, only the check of the behavior tree may say what cannot be worded. -/
theorem isPlain_or_eq_behavior {f : String × (FieldPath → Value → List Remark)}
    (hf : f ∈ fieldChecks) : IsPlain f.2 ∨ f = ("behavior", node) := by
  simp only [fieldChecks, pointFields, positiveFields, List.mem_append, List.mem_cons,
    List.mem_map, List.not_mem_nil, or_false] at hf
  rcases hf with (((rfl | rfl) | ⟨_, -, rfl⟩) | ⟨_, -, rfl⟩) |
    rfl | rfl | rfl | rfl | rfl | rfl | rfl | rfl
  · exact .inl isPlain_positiveInteger
  · exact .inl isPlain_positiveInteger
  · exact .inl isPlain_point
  · exact .inl isPlain_positive
  · exact .inl (isPlain_within 0 1)
  · exact .inl (isPlain_within 0 10)
  · exact .inl (isPlain_items isPlain_collider)
  · exact .inl (isPlain_spawners _)
  · exact .inl (isPlain_spawners _)
  · exact .inr rfl
  · exact .inl (isPlain_items isPlain_joint)
  · exact .inl (isPlain_items isPlain_decoration)

/-! ## Documents -/

theorem wordable_unknownFields (entries : Table Value) : Wordable (unknownFields entries) :=
  List.forall_mem_map.mpr fun _ _ => rfl

theorem wordable_name (isPatch : Bool) (entries : Table Value) :
    Wordable (name isPatch entries) := by
  unfold name
  split
  · exact wordable_remarkIf rfl
  · exact wordable_remarkIf rfl
  · exact wordable_remark.mpr rfl

/-- **The remarks on a document can be worded** iff the actions that its behavior tree names can be
shown. -/
theorem wordable_document_iff (isPatch : Bool) (entries : Table Value) :
    Wordable (document isPatch (.table entries)) ↔
      ∀ tree, entries.get? "behavior" = some tree →
        ∀ a, HoldsAction tree a → a.isShowable = true := by
  have hbehavior : ("behavior", node) ∈ fieldChecks := by simp [fieldChecks]
  rw [document, wordable_append, wordable_append, wordable_flatMap,
    and_iff_right ⟨wordable_unknownFields entries, wordable_name isPatch entries⟩]
  constructor
  · intro h tree htree
    have hnode := h _ hbehavior
    simp only [entry, htree] at hnode
    exact (wordable_node_iff _ tree).mp hnode
  · intro h f hf
    rcases isPlain_or_eq_behavior hf with hplain | rfl
    · exact wordable_entry hplain _ _ _
    · cases htree : entries.get? "behavior" with
      | none => simp [entry, htree]
      | some tree =>
        simp only [entry, htree]
        exact (wordable_node_iff _ tree).mpr (h tree htree)

end Check

/-- **There is a verdict** iff all remarks can be worded. -/
theorem exists_validate_iff {isPatch : Bool} {v : Value} :
    (∃ verdict, validate isPatch v = .ok verdict) ↔ Check.Wordable (Check.document isPatch v) := by
  unfold validate Check.Wordable
  simp only
  cases hfind : (Check.document isPatch v).find? fun r => !r.problem.isWordable with
  | none =>
    refine iff_of_true ⟨_, rfl⟩ fun r hr => ?_
    simpa using List.find?_eq_none.mp hfind r hr
  | some r =>
    refine iff_of_false (by simp) fun h => ?_
    have hr := List.find?_some hfind
    simp [h r (List.mem_of_find?_eq_some hfind)] at hr

end Bestiary
