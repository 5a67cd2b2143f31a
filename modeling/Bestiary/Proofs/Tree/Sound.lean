import Bestiary.Proofs.Behavior.Command
import Bestiary.Proofs.Behavior.Node
import Bestiary.Tree.Path

/-!
# Sound trees

A written tree is sound when every node either has a type that is not known, or fits the kind that
it names: it has the fields of that kind and no others, with commands that can be read, and sound
trees in its list and in its slots.

* `Fits` is what a node of a kind must have, `Sound` the property of trees.
* `assembled_control_eq_ok_iff` and its siblings say what a table of each kind is read as;
  `assembled_ok_iff` that it can be read iff it fits.
* `sound_iff` says what `Sound` means for the tree that is read.
-/

namespace Bestiary

/-- Nothing but a table is a node. -/
theorem Node.read_of_table?_eq_none {ε : Type} [HasKind ε] {d : Data ε} (h : d.table? = none) :
    read d = .unknown none d (.noTable "node") := by
  cases d <;> simp_all [read, Data.table?]

/-- The keys that a node of a kind may have. -/
def NodeKind.keys (kind : NodeKind) : List String :=
  "type" :: (kind.layout.defaults.keys ++ kind.layout.slots.map Slot.field)

/-- **A case for each slot** that a node of some kind has. -/
@[elab_as_elim]
theorem NodeKind.slot_cases {motive : ∀ (kind : NodeKind) (s : Slot), s ∈ kind.layout.slots → Prop}
    (loopCondition : motive .whileLoop ⟨"condition", false, secondOfWaiting⟩ (.head _))
    (loopChild : motive .whileLoop ⟨"child", true, emptyAction "Child"⟩ (.tail _ (.head _)))
    (branchCondition : motive .ifThen ⟨"condition", true, secondOfWaiting⟩ (.head _))
    (thenChild : motive .ifThen ⟨"then_child", true, emptyAction "Then"⟩ (.tail _ (.head _)))
    (elseChild : motive .ifThen ⟨"else_child", false, emptyAction "Else"⟩
      (.tail _ (.tail _ (.head _))))
    {kind : NodeKind} {s : Slot} (hs : s ∈ kind.layout.slots) : motive kind s hs := by
  cases kind with
  | whileLoop =>
    obtain rfl | rfl : s = _ ∨ s = _ := by simpa [layout] using hs
    · exact loopCondition
    · exact loopChild
  | ifThen =>
    obtain rfl | rfl | rfl : s = _ ∨ s = _ ∨ s = _ := by simpa [layout] using hs
    · exact branchCondition
    · exact thenChild
    · exact elseChild
  | _ => exact absurd hs List.not_mem_nil

/-- No two slots of a kind are for one field. -/
theorem NodeKind.nodup_slot_fields (kind : NodeKind) :
    (kind.layout.slots.map Slot.field).Nodup := by
  cases kind <;> simp [layout, plainLayout]

namespace Tree

open Record

/-- The fields of a leaf hold what they should. -/
def OwnFits (entries : Table Value) : NodeKind → Prop
  | .wait => ∃ n, entries.get? "seconds" = some (.number n)
  | .action => (∃ s, entries.get? "name" = some (.text s)) ∧
    ∃ items, entries.get? "behaviors" = some (.list items) ∧ ∀ c ∈ items, Command.IsReadable c
  | .trigger => ∃ s, entries.get? "trigger_type" = some (.text s)
  | _ => True

/-- A table has what a node of a kind must have, whatever the nodes below it are. -/
structure Fits (kind : NodeKind) (entries : Table Value) : Prop where
  closed : ∀ k ∈ entries.keys, k ∈ kind.keys
  listed : ∀ field, kind.layout.listField = some field →
    ∃ items, entries.get? field = some (.list items)
  filled : ∀ s ∈ kind.layout.slots, s.required = true → ∃ v, entries.get? s.field = some v
  own : OwnFits entries kind

/-- What is written in the places for children of a node. -/
def childValues (kind : NodeKind) (entries : Table Value) : List Value :=
  (childList? kind entries).getD [] ++ kind.layout.slots.filterMap fun s => entries.get? s.field

/-- The children of a control node are the items of its list. -/
theorem childValues_control {entries : Table Value} {items : List Value} (c : ControlKind)
    (hitems : entries.get? "children" = some (.list items)) :
    childValues (.control c) entries = items := by
  simp [childValues, childList?, NodeKind.layout, NodeKind.plainLayout, hitems, Data.list?]

/-- The children of a node without a list are what is in its slots. -/
theorem mem_childValues_iff_of_slots {kind : NodeKind} {entries : Table Value} {v : Value}
    (hlist : kind.layout.listField = none) :
    v ∈ childValues kind entries ↔ ∃ s ∈ kind.layout.slots, entries.get? s.field = some v := by
  simp [childValues, childList?, hlist]

/-- **Sound trees**: every node has a type that is not known, or fits the kind that it names. -/
inductive Sound : Value → Prop
  | foreign {entries : Table Value} {name : String}
      (htype : entries.get? "type" = some (.text name)) (hname : NodeKind.ofName? name = none) :
      Sound (.table entries)
  | known {entries : Table Value} {kind : NodeKind} (hkind : kindOf? (.table entries) = some kind)
      (hfits : Fits kind entries) (hbelow : ∀ v ∈ childValues kind entries, Sound v) :
      Sound (.table entries)

theorem kindOf?_table (entries : Table Value) :
    kindOf? (.table entries) =
      ((entries.get? "type").bind Data.text?).bind NodeKind.ofName? := rfl

/-- **Induction on written trees**: what holds of everything that is no table, and of a table if it
holds of what is written in the places for children, holds of all values. -/
@[elab_as_elim]
theorem induction {motive : Value → Prop} (leaf : ∀ v, v.table? = none → motive v)
    (node : ∀ entries, (∀ kind, ∀ v ∈ childValues kind entries, motive v) →
      motive (.table entries)) (v : Value) : motive v := by
  -- The children in a list are two steps down, so the items of a list are carried along.
  have h : motive v ∧ ∀ x ∈ v.list?.getD [], motive x := by
    induction v using Data.induction with
    | list items ih => exact ⟨leaf _ rfl, fun x hx => (ih x hx).1⟩
    | table entries ih =>
      refine ⟨node entries fun kind v hv => ?_, fun x hx => absurd hx List.not_mem_nil⟩
      rcases List.mem_append.mp hv with hv | hv
      · unfold childList? at hv
        cases hd : kind.layout.listField.bind entries.get? with
        | none =>
          rw [hd] at hv
          exact absurd hv List.not_mem_nil
        | some d =>
          rw [hd] at hv
          obtain ⟨field, -, hfield⟩ := Option.bind_eq_some_iff.mp hd
          exact (ih _ (Table.mem_of_get? hfield)).2 v hv
      · obtain ⟨s, -, hs⟩ := List.mem_filterMap.mp hv
        exact (ih _ (Table.mem_of_get? hs)).1
    | _ => exact ⟨leaf _ rfl, fun x hx => absurd hx List.not_mem_nil⟩
  exact h.1

/-! ## Reading a node of a known kind -/

/-- The node that a table of a known kind is, or why it is none. -/
def assembled (kind : NodeKind) (entries : Table Value) : Except Unreadable Behavior :=
  Node.assemble kind entries (Node.readChildren "children" entries) fun key =>
    Node.readSlot key entries

theorem read_table {entries : Table Value} {kind : NodeKind}
    (hkind : kindOf? (.table entries) = some kind) :
    Node.read (.table entries) = Node.orUnknown kind entries (assembled kind entries) := by
  obtain ⟨name, hname, hkind⟩ := Option.bind_eq_some_iff.mp hkind
  have hdeclared : Node.declaredKind entries = .ok kind := by
    unfold Node.declaredKind
    rw [show (entries.get? "type").bind Data.text? = some name from hname]
    simp only [hkind]
  rw [Node.read, hdeclared]
  rfl

section Assembled

variable {entries : Table Value} {n : Behavior}

theorem assembled_control_eq_ok_iff {c : ControlKind} :
    assembled (.control c) entries = .ok n ↔
      (∀ k ∈ entries.keys, k ∈ (NodeKind.control c).keys) ∧
        ∃ items, entries.get? "children" = some (.list items) ∧
          n = .control c (items.map Node.read) := by
  have hcheck : Node.checkControl entries = .ok () ↔
      (∀ k ∈ entries.keys, k ∈ (NodeKind.control c).keys) ∧
        ∃ items, entries.get? "children" = some (.list items) := by
    simp only [Node.checkControl, Except.bind_eq_ok_iff, required_eq_ok_iff, asList_eq_ok_iff,
      closed_eq_ok_iff]
    constructor
    · rintro ⟨items, ⟨_, hitems, rfl⟩, hclosed⟩
      exact ⟨hclosed, items, hitems⟩
    · rintro ⟨hclosed, items, hitems⟩
      exact ⟨items, ⟨_, hitems, rfl⟩, hclosed⟩
  unfold assembled Node.assemble
  simp only [Node.readChildren_eq]
  constructor
  · intro h
    split at h
    · rename_i hok
      obtain ⟨hclosed, items, hitems⟩ := hcheck.mp hok
      refine ⟨hclosed, items, hitems, ?_⟩
      rw [hitems] at h
      exact (Except.ok.inj h).symm
    · exact absurd h (by simp)
  · rintro ⟨hclosed, items, hitems, rfl⟩
    rw [hcheck.mpr ⟨hclosed, items, hitems⟩, hitems]
    rfl

theorem assembled_whileLoop_eq_ok_iff :
    assembled .whileLoop entries = .ok n ↔
      (∀ k ∈ entries.keys, k ∈ NodeKind.whileLoop.keys) ∧
        ∃ child, entries.get? "child" = some child ∧
          n = .whileLoop ((entries.get? "condition").map Node.read) (Node.read child) := by
  have hclosed : closed ["type", "condition", "child"] entries = .ok () ↔
      ∀ k ∈ entries.keys, k ∈ NodeKind.whileLoop.keys := closed_eq_ok_iff
  unfold assembled Node.assemble
  simp only [Node.readSlot_eq, ← hclosed]
  cases entries.get? "child" with
  | none => simp
  | some child =>
    cases closed ["type", "condition", "child"] entries <;> simp [eq_comm]

theorem assembled_ifThen_eq_ok_iff :
    assembled .ifThen entries = .ok n ↔
      (∀ k ∈ entries.keys, k ∈ NodeKind.ifThen.keys) ∧
        ∃ condition thenChild, entries.get? "condition" = some condition ∧
          entries.get? "then_child" = some thenChild ∧
          n = .ifThen (Node.read condition) (Node.read thenChild)
            ((entries.get? "else_child").map Node.read) := by
  have hclosed : closed ["type", "condition", "then_child", "else_child"] entries = .ok () ↔
      ∀ k ∈ entries.keys, k ∈ NodeKind.ifThen.keys := closed_eq_ok_iff
  unfold assembled Node.assemble
  simp only [Node.readSlot_eq, ← hclosed]
  cases entries.get? "condition" with
  | none => simp
  | some condition =>
    cases entries.get? "then_child" with
    | none => simp
    | some thenChild =>
      cases closed ["type", "condition", "then_child", "else_child"] entries <;> simp [eq_comm]

theorem assembled_wait_eq_ok_iff :
    assembled .wait entries = .ok n ↔
      (∀ k ∈ entries.keys, k ∈ NodeKind.wait.keys) ∧
        ∃ seconds, entries.get? "seconds" = some (.number seconds) ∧ n = .wait seconds := by
  simp only [assembled, Node.assemble, Node.readLeaf, Except.mapError_eq_ok_iff,
    Except.bind_eq_ok_iff, required_eq_ok_iff, asNumber_eq_ok_iff, closed_eq_ok_iff]
  constructor
  · rintro ⟨seconds, ⟨_, hseconds, rfl⟩, -, hclosed, h⟩
    exact ⟨hclosed, seconds, hseconds, (Except.ok.inj h).symm⟩
  · rintro ⟨hclosed, seconds, hseconds, rfl⟩
    exact ⟨seconds, ⟨_, hseconds, rfl⟩, (), hclosed, rfl⟩

theorem assembled_action_eq_ok_iff :
    assembled .action entries = .ok n ↔
      (∀ k ∈ entries.keys, k ∈ NodeKind.action.keys) ∧
        ∃ name d commands, entries.get? "name" = some (.text name) ∧
          entries.get? "behaviors" = some d ∧ Command.readList d = .ok commands ∧
          n = .action name commands := by
  simp only [assembled, Node.assemble, Node.readLeaf, Except.mapError_eq_ok_iff,
    Except.bind_eq_ok_iff, required_eq_ok_iff, asText_eq_ok_iff, closed_eq_ok_iff]
  constructor
  · rintro ⟨name, ⟨_, hname, rfl⟩, commands, ⟨d, hd, hcommands⟩, -, hclosed, h⟩
    exact ⟨hclosed, name, d, commands, hname, hd, hcommands, (Except.ok.inj h).symm⟩
  · rintro ⟨hclosed, name, d, commands, hname, hd, hcommands, rfl⟩
    exact ⟨name, ⟨_, hname, rfl⟩, commands, ⟨d, hd, hcommands⟩, (), hclosed, rfl⟩

theorem assembled_trigger_eq_ok_iff :
    assembled .trigger entries = .ok n ↔
      (∀ k ∈ entries.keys, k ∈ NodeKind.trigger.keys) ∧
        ∃ event, entries.get? "trigger_type" = some (.text event) ∧ n = .trigger event := by
  simp only [assembled, Node.assemble, Node.readLeaf, Except.mapError_eq_ok_iff,
    Except.bind_eq_ok_iff, required_eq_ok_iff, asText_eq_ok_iff, closed_eq_ok_iff]
  constructor
  · rintro ⟨event, ⟨_, hevent, rfl⟩, -, hclosed, h⟩
    exact ⟨hclosed, event, hevent, (Except.ok.inj h).symm⟩
  · rintro ⟨hclosed, event, hevent, rfl⟩
    exact ⟨event, ⟨_, hevent, rfl⟩, (), hclosed, rfl⟩

end Assembled

/-- A table that fits a kind can be read as a node of it. -/
theorem assembled_of_fits {kind : NodeKind} {entries : Table Value} (h : Fits kind entries) :
    ∃ n, assembled kind entries = .ok n := by
  cases kind with
  | control c =>
    obtain ⟨items, hitems⟩ := h.listed "children" rfl
    exact ⟨_, assembled_control_eq_ok_iff.mpr ⟨h.closed, items, hitems, rfl⟩⟩
  | whileLoop =>
    obtain ⟨child, hchild⟩ := h.filled ⟨"child", true, _⟩ (.tail _ (.head _)) rfl
    exact ⟨_, assembled_whileLoop_eq_ok_iff.mpr ⟨h.closed, child, hchild, rfl⟩⟩
  | ifThen =>
    obtain ⟨condition, hcondition⟩ := h.filled ⟨"condition", true, _⟩ (.head _) rfl
    obtain ⟨thenChild, hthen⟩ := h.filled ⟨"then_child", true, _⟩ (.tail _ (.head _)) rfl
    exact ⟨_, assembled_ifThen_eq_ok_iff.mpr
      ⟨h.closed, condition, thenChild, hcondition, hthen, rfl⟩⟩
  | wait =>
    obtain ⟨seconds, hseconds⟩ := h.own
    exact ⟨_, assembled_wait_eq_ok_iff.mpr ⟨h.closed, seconds, hseconds, rfl⟩⟩
  | action =>
    obtain ⟨⟨name, hname⟩, items, hitems, hreadable⟩ := h.own
    obtain ⟨commands, hcommands⟩ := (Command.readList_ok_iff _).mpr ⟨items, rfl, hreadable⟩
    exact ⟨_, assembled_action_eq_ok_iff.mpr
      ⟨h.closed, name, _, commands, hname, hitems, hcommands, rfl⟩⟩
  | trigger =>
    obtain ⟨event, hevent⟩ := h.own
    exact ⟨_, assembled_trigger_eq_ok_iff.mpr ⟨h.closed, event, hevent, rfl⟩⟩

/-- The table fits the kind, and the children of the node are what is written in its places. -/
structure Reflects (kind : NodeKind) (entries : Table Value) (n : Behavior) : Prop where
  fits : Fits kind entries
  known : n.isUnknown = false
  children : n.children = (childValues kind entries).map Node.read

/-- A node without slots: all that it may have besides its fields is a list. -/
theorem fits_of_no_slots {kind : NodeKind} {entries : Table Value}
    (hclosed : ∀ k ∈ entries.keys, k ∈ kind.keys) (hslots : kind.layout.slots = [])
    (hlist : ∀ field, kind.layout.listField = some field →
      ∃ items, entries.get? field = some (.list items)) (hown : OwnFits entries kind) :
    Fits kind entries := by
  refine ⟨hclosed, hlist, fun s hs => ?_, hown⟩
  rw [hslots] at hs
  exact absurd hs List.not_mem_nil

theorem reflects_control {c : ControlKind} {entries : Table Value} {n : Behavior}
    (h : assembled (.control c) entries = .ok n) : Reflects (.control c) entries n := by
  obtain ⟨hclosed, items, hitems, rfl⟩ := assembled_control_eq_ok_iff.mp h
  refine ⟨fits_of_no_slots hclosed rfl ?_ trivial, rfl, ?_⟩
  · rintro _ ⟨⟩
    exact ⟨items, hitems⟩
  · rw [Node.children, childValues_control c hitems]

theorem reflects_whileLoop {entries : Table Value} {n : Behavior}
    (h : assembled .whileLoop entries = .ok n) : Reflects .whileLoop entries n := by
  obtain ⟨hclosed, child, hchild, rfl⟩ := assembled_whileLoop_eq_ok_iff.mp h
  refine ⟨⟨hclosed, fun _ h => absurd h (by simp [NodeKind.layout]), ?_, trivial⟩, rfl, ?_⟩
  · intro s hs hr
    simp only [NodeKind.layout, List.mem_cons, List.not_mem_nil, or_false] at hs
    rcases hs with rfl | rfl
    · exact absurd hr (by simp)
    · exact ⟨child, hchild⟩
  · cases hcondition : entries.get? "condition" <;>
      simp [Node.children, childValues, childList?, NodeKind.layout, hchild, hcondition]

theorem reflects_ifThen {entries : Table Value} {n : Behavior}
    (h : assembled .ifThen entries = .ok n) : Reflects .ifThen entries n := by
  obtain ⟨hclosed, condition, thenChild, hcondition, hthen, rfl⟩ :=
    assembled_ifThen_eq_ok_iff.mp h
  refine ⟨⟨hclosed, fun _ h => absurd h (by simp [NodeKind.layout]), ?_, trivial⟩, rfl, ?_⟩
  · intro s hs hr
    simp only [NodeKind.layout, List.mem_cons, List.not_mem_nil, or_false] at hs
    rcases hs with rfl | rfl | rfl
    · exact ⟨condition, hcondition⟩
    · exact ⟨thenChild, hthen⟩
    · exact absurd hr (by simp)
  · cases helse : entries.get? "else_child" <;>
      simp [Node.children, childValues, childList?, NodeKind.layout, hcondition, hthen, helse]

theorem reflects_leaf {kind : NodeKind} {entries : Table Value} {n : Behavior}
    (hclosed : ∀ k ∈ entries.keys, k ∈ kind.keys) (hown : OwnFits entries kind)
    (hlist : kind.layout.listField = none) (hslots : kind.layout.slots = [])
    (hknown : n.isUnknown = false) (hchildren : n.children = []) : Reflects kind entries n := by
  refine ⟨fits_of_no_slots hclosed hslots (fun _ h => ?_) hown, hknown, ?_⟩
  · exact absurd (hlist.symm.trans h) (by simp)
  · simp [hchildren, childValues, childList?, hlist, hslots]

/-- **What could be read fits its kind**, and its children are what is written in their places. -/
theorem reflects_of_assembled {kind : NodeKind} {entries : Table Value} {n : Behavior}
    (h : assembled kind entries = .ok n) : Reflects kind entries n := by
  cases kind with
  | control c => exact reflects_control h
  | whileLoop => exact reflects_whileLoop h
  | ifThen => exact reflects_ifThen h
  | wait =>
    obtain ⟨hclosed, seconds, hseconds, rfl⟩ := assembled_wait_eq_ok_iff.mp h
    exact reflects_leaf hclosed ⟨seconds, hseconds⟩ rfl rfl rfl rfl
  | action =>
    obtain ⟨hclosed, name, d, commands, hname, hd, hcommands, rfl⟩ :=
      assembled_action_eq_ok_iff.mp h
    obtain ⟨items, rfl, hreadable⟩ := (Command.readList_ok_iff _).mp ⟨_, hcommands⟩
    exact reflects_leaf hclosed ⟨⟨name, hname⟩, items, hd, hreadable⟩ rfl rfl rfl rfl
  | trigger =>
    obtain ⟨hclosed, event, hevent, rfl⟩ := assembled_trigger_eq_ok_iff.mp h
    exact reflects_leaf hclosed ⟨event, hevent⟩ rfl rfl rfl rfl

/-- **A table of a known kind can be read iff it fits the kind.** -/
theorem assembled_ok_iff {kind : NodeKind} {entries : Table Value} :
    (∃ n, assembled kind entries = .ok n) ↔ Fits kind entries := by
  constructor
  · rintro ⟨n, hn⟩
    exact (reflects_of_assembled hn).fits
  · exact assembled_of_fits

/-! ## Reading a tree -/

/-- A table of a known kind is sound iff it fits and everything below it is sound. -/
theorem sound_known_iff {entries : Table Value} {kind : NodeKind}
    (hkind : kindOf? (.table entries) = some kind) :
    Sound (.table entries) ↔ Fits kind entries ∧ ∀ v ∈ childValues kind entries, Sound v := by
  constructor
  · rintro (⟨htype, hname⟩ | ⟨hkind', hfits, hbelow⟩)
    · rw [kindOf?_table, htype] at hkind
      exact absurd (hname.symm.trans hkind) (by simp)
    · obtain rfl := Option.some.inj (hkind.symm.trans hkind')
      exact ⟨hfits, hbelow⟩
  · rintro ⟨hfits, hbelow⟩
    exact .known hkind hfits hbelow

/-- A table of no known kind is sound iff it names a type at all. -/
theorem sound_foreign_iff {entries : Table Value} (hkind : kindOf? (.table entries) = none) :
    Sound (.table entries) ↔ ∃ name, entries.get? "type" = some (.text name) := by
  constructor
  · rintro (⟨htype, -⟩ | ⟨hkind', -, -⟩)
    · exact ⟨_, htype⟩
    · exact absurd (hkind.symm.trans hkind') (by simp)
  · rintro ⟨name, hname⟩
    rw [kindOf?_table, hname] at hkind
    exact .foreign hname hkind

/-- The unknown node that a table of no known kind is read as. -/
theorem read_foreign {entries : Table Value} (hkind : kindOf? (.table entries) = none) :
    ∃ reason, Node.read (.table entries) =
      .unknown ((entries.get? "type").bind Data.text?) (.table entries) reason := by
  rw [kindOf?_table] at hkind
  rw [Node.read]
  unfold Node.declaredKind
  cases htype : (entries.get? "type").bind Data.text? with
  | none => exact ⟨_, rfl⟩
  | some name =>
    rw [htype, Option.bind_some] at hkind
    simp only [hkind]
    exact ⟨_, rfl⟩

theorem read_of_assembled {kind : NodeKind} {entries : Table Value} {n : Behavior}
    (hkind : kindOf? (.table entries) = some kind) (hn : assembled kind entries = .ok n) :
    Node.read (.table entries) = n := by
  rw [read_table hkind, hn]
  rfl

/-- A value that is read as a node of a known kind is a table of that kind. -/
theorem exists_assembled {v : Value} (h : (Node.read v).isUnknown = false) :
    ∃ entries kind, v = .table entries ∧ kindOf? (.table entries) = some kind ∧
      assembled kind entries = .ok (Node.read v) := by
  cases v with
  | table entries =>
    cases hkind : kindOf? (.table entries) with
    | none =>
      obtain ⟨reason, hread⟩ := read_foreign hkind
      rw [hread] at h
      exact absurd h (by simp [Node.isUnknown])
    | some kind =>
      rw [read_table hkind] at h ⊢
      cases hn : assembled kind entries with
      | error reason =>
        rw [hn] at h
        exact absurd h (by simp [Node.orUnknown, Node.isUnknown])
      | ok n => exact ⟨entries, kind, rfl, hkind, hn⟩
  | _ =>
    rw [Node.read_of_table?_eq_none rfl] at h
    exact absurd h (by simp [Node.isUnknown])

/-- What holds of every node of the tree that a fitting table is read as. -/
theorem forall_nodes_iff {n : Behavior} {values : List Value} {P : Behavior → Prop}
    (hchildren : n.children = values.map Node.read) :
    (∀ u ∈ n.nodes, P u) ↔ P n ∧ ∀ v ∈ values, ∀ u ∈ (Node.read v).nodes, P u := by
  rw [Node.nodes_eq, List.forall_mem_cons, hchildren]
  simp only [List.mem_flatMap, List.mem_map]
  constructor
  · rintro ⟨hn, h⟩
    exact ⟨hn, fun v hv u hu => h u ⟨_, ⟨v, hv, rfl⟩, hu⟩⟩
  · rintro ⟨hn, h⟩
    refine ⟨hn, ?_⟩
    rintro u ⟨_, ⟨v, hv, rfl⟩, hu⟩
    exact h v hv u hu

/-- Of the nodes that could not be read, a table of no known kind must name its type. -/
theorem sound_iff_of_foreign {entries : Table Value} (hkind : kindOf? (.table entries) = none) :
    Sound (.table entries) ↔ ∀ u ∈ (Node.read (.table entries)).nodes, u.isUnknown = true →
      ∃ name, u.declared? = some name ∧ NodeKind.ofName? name = none := by
  obtain ⟨reason, hread⟩ := read_foreign hkind
  rw [sound_foreign_iff hkind, hread]
  simp only [Node.nodes, List.forall_mem_singleton, Node.isUnknown, Node.declared?, forall_const]
  constructor
  · rintro ⟨name, hname⟩
    rw [kindOf?_table, hname] at hkind
    exact ⟨name, by rw [hname]; rfl, hkind⟩
  · rintro ⟨name, hname, -⟩
    obtain ⟨d, hd, htext⟩ := Option.bind_eq_some_iff.mp hname
    cases d with
    | text s => exact ⟨s, hd⟩
    | _ => exact absurd htext (by simp [Data.text?])

/-- What cannot be put together as a node of a kind does not fit it. -/
theorem not_fits_of_assembled_eq_error {kind : NodeKind} {entries : Table Value}
    {reason : Unreadable} (hn : assembled kind entries = .error reason) : ¬Fits kind entries := by
  intro hfits
  obtain ⟨n, hok⟩ := assembled_of_fits hfits
  exact absurd (hn.symm.trans hok) (by simp)

/-- **A tree is sound iff its unknown nodes are of types that are not known**: all of it can be
read but for such nodes. -/
theorem sound_iff (v : Value) :
    Sound v ↔ ∀ u ∈ (Node.read v).nodes, u.isUnknown = true →
      ∃ name, u.declared? = some name ∧ NodeKind.ofName? name = none := by
  induction v using induction with
  | leaf v hv =>
    rw [Node.read_of_table?_eq_none hv]
    constructor
    · rintro (_ | _) <;> exact absurd hv (by simp [Data.table?])
    · intro h
      obtain ⟨name, hname, -⟩ := h _ (List.mem_singleton.mpr rfl) rfl
      exact absurd hname (by simp [Node.declared?])
  | node entries ih =>
    cases hkind : kindOf? (.table entries) with
    | none => exact sound_iff_of_foreign hkind
    | some kind =>
      rw [sound_known_iff hkind, read_table hkind]
      cases hn : assembled kind entries with
      | error reason =>
        constructor
        · rintro ⟨hfits, -⟩
          exact absurd hfits (not_fits_of_assembled_eq_error hn)
        · intro h
          obtain ⟨name, hname, hnone⟩ := h _ (List.mem_singleton.mpr rfl) rfl
          obtain rfl := Option.some.inj hname
          exact absurd hnone (by simp)
      | ok n =>
        obtain ⟨hfits, hknown, hchildren⟩ := reflects_of_assembled hn
        rw [Node.orUnknown, forall_nodes_iff hchildren]
        constructor
        · rintro ⟨-, hbelow⟩
          refine ⟨fun hu => absurd hu (by simp [hknown]), fun v hv => ?_⟩
          exact (ih kind v hv).mp (hbelow v hv)
        · rintro ⟨-, hbelow⟩
          exact ⟨hfits, fun v hv => (ih kind v hv).mpr (hbelow v hv)⟩

end Tree

end Bestiary
