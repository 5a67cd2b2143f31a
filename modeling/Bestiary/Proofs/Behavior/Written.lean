import Bestiary.Proofs.Data.Equal
import Bestiary.Proofs.Tree.Sound

/-!
# Reading and writing trees

Reading a tree and writing it again loses nothing, and neither does writing it and reading it again.

* `Command.read_toData` and `Node.read_toData`: a command is read back from its written form, and so
  is a tree if what its unknown nodes hold is read as them.
* `Command.same_toData` and `Node.same_toData_read`: what was read is written as it was, up to the
  order of keys.
* `Node.read_toData_read`: a tree that was read is read back from its written form.
-/

namespace Bestiary

variable {ε : Type} [HasKind ε]

namespace Command

open Record

/-! ## Commands -/

/-- The table that a command is written as names its action, so the parameters of that action are
read from it. -/
theorem read_tableOf (a : Action) (params : List (String × Data ε)) :
    read (tableOf a params) =
      (readParams (("action", .text a.name) :: params)
        (readNested (("action", .text a.name) :: params)) a).mapError .field := by
  have haction : readAction (("action", .text a.name) :: params) = .ok a := by
    rw [readAction_eq_ok_iff]
    simp [Data.text?]
  rw [tableOf, read, haction]

mutual

/-- **A command is read back from its written form.** -/
theorem read_toData : ∀ c : Command, read (c.toData : Data ε) = .ok c
  | .simple a => by
    rw [toData, read_tableOf]
    rfl
  | .moveTo x y => by
    rw [toData, read_tableOf]
    rfl
  | .spawn what none => by
    rw [toData, read_tableOf]
    rfl
  | .spawn what (some keys) => by
    have hkeys : Record.optional [("action", (.text (Action.spawn what).name : Data ε)),
        ("keys", .texts keys)] "keys" (readItems asText) = .ok (some keys) :=
      optional_eq_ok_iff.mpr (.inr ⟨_, keys, rfl, readItems_asText_eq_ok_iff.mpr rfl, rfl⟩)
    rw [toData, read_tableOf, readParams, hkeys]
    rfl
  | .doForTime seconds => by
    rw [toData, read_tableOf]
    rfl
  | .transmit mobType commands => by
    have hnested : readNested [("action", (.text Action.transmit.name : Data ε)),
        ("mob_type", .text mobType), ("behaviors", .list (listToData commands))] =
          .ok commands := by
      simp [readNested, readList, readFrom_listToData 0 commands, under, Except.mapError]
    rw [toData, read_tableOf, hnested]
    rfl
  | .rotateJoints keys => by
    have hkeys : required [("action", (.text Action.rotateJoints.name : Data ε)),
        ("keys", .texts keys)] "keys" (readItems asText) = .ok keys :=
      required_eq_ok_iff.mpr ⟨_, rfl, readItems_asText_eq_ok_iff.mpr rfl⟩
    rw [toData, read_tableOf, readParams, hkeys]
    rfl

/-- Commands are read back from their written forms, one after the other. -/
theorem readFrom_listToData (i : Nat) :
    ∀ commands, readFrom i (listToData commands : List (Data ε)) = .ok commands
  | [] => rfl
  | c :: commands => by
    rw [listToData, readFrom, read_toData c, readFrom_listToData (i + 1) commands]
    rfl

end

/-! ## What was read is written -/

open Value (same)

/-- A table with the action and the parameters of a command, and nothing else, is the same as its
written form. -/
theorem same_tableOf {entries : Table Value} {a : Action} {params : List (String × Value)}
    (hentries : entries.keys.Nodup) (hparams : ("action" :: Table.keys params).Nodup)
    (haction : ((entries.get? "action").bind Data.text?).bind Action.ofName? = some a)
    (hclosed : ∀ k ∈ entries.keys, k ∈ "action" :: Table.keys params)
    (hsame : ∀ e ∈ params, ∃ w, entries.get? e.1 = some w ∧ same e.2 w = true) :
    same (tableOf a params) (.table entries) = true := by
  refine Value.same_table_of_get? hparams hentries hclosed (List.forall_mem_cons.mpr ⟨?_, hsame⟩)
  obtain ⟨name, hname, ha⟩ := Option.bind_eq_some_iff.mp haction
  obtain ⟨d, hd, hname⟩ := Option.bind_eq_some_iff.mp hname
  refine ⟨d, hd, ?_⟩
  cases d with
  | text s =>
    obtain rfl := Option.some.inj hname
    simp [same, Action.name_of_ofName? ha]
  | _ => exact absurd hname (by simp [Data.text?])

theorem wellKeyed_texts (keys : List String) : (Data.texts keys : Value).WellKeyed := by
  rw [Data.texts, Data.wellKeyed_list_iff]
  intro d hd
  obtain ⟨key, -, rfl⟩ := List.mem_map.mp hd
  trivial

/-- **A table that was read as a command is written as it was**, if its nested commands are. -/
theorem same_toData_of_readParams {entries : Table Value} {nested : Except Issue (List Command)}
    {a : Action} {c : Command} (hentries : entries.keys.Nodup)
    (haction : ((entries.get? "action").bind Data.text?).bind Action.ofName? = some a)
    (hnested : ∀ commands, nested = .ok commands →
      ∃ w, entries.get? "behaviors" = some w ∧ same (.list (listToData commands)) w = true)
    (h : readParams entries nested a = .ok c) : same c.toData (.table entries) = true := by
  cases a with
  | simple s =>
    simp only [readParams, Except.bind_eq_ok_iff, closed_eq_ok_iff] at h
    obtain ⟨-, hclosed, h⟩ := h
    cases h
    exact same_tableOf hentries (by simp) haction hclosed (by simp)
  | moveTo =>
    simp only [readParams, Except.bind_eq_ok_iff, required_eq_ok_iff, asNumber_eq_ok_iff,
      closed_eq_ok_iff] at h
    obtain ⟨x, ⟨_, hx, rfl⟩, y, ⟨_, hy, rfl⟩, -, hclosed, h⟩ := h
    cases h
    refine same_tableOf hentries (by simp) haction hclosed ?_
    rw [List.forall_mem_cons, List.forall_mem_singleton]
    exact ⟨⟨_, hx, Value.same_refl trivial⟩, _, hy, Value.same_refl trivial⟩
  | spawn what =>
    simp only [readParams, Except.bind_eq_ok_iff, optional_eq_ok_iff, readItems_asText_eq_ok_iff,
      closed_eq_ok_iff] at h
    obtain ⟨o, ho, -, hclosed, h⟩ := h
    cases h
    rcases ho with ⟨hnone, rfl⟩ | ⟨_, keys, hkeys, rfl, rfl⟩
    · refine same_tableOf hentries (by simp) haction (fun k hk => ?_) (by simp)
      simpa [Table.ne_of_get?_eq_none hnone hk] using hclosed k hk
    · refine same_tableOf hentries (by simp) haction hclosed ?_
      rw [List.forall_mem_singleton]
      exact ⟨_, hkeys, Value.same_refl (wellKeyed_texts keys)⟩
  | doForTime =>
    simp only [readParams, Except.bind_eq_ok_iff, required_eq_ok_iff, asNumber_eq_ok_iff,
      closed_eq_ok_iff] at h
    obtain ⟨seconds, ⟨_, hseconds, rfl⟩, -, hclosed, h⟩ := h
    cases h
    refine same_tableOf hentries (by simp) haction hclosed ?_
    rw [List.forall_mem_singleton]
    exact ⟨_, hseconds, Value.same_refl trivial⟩
  | transmit =>
    simp only [readParams, Except.bind_eq_ok_iff, required_eq_ok_iff, asText_eq_ok_iff,
      closed_eq_ok_iff] at h
    obtain ⟨mobType, ⟨_, hmob, rfl⟩, commands, hcommands, -, hclosed, h⟩ := h
    cases h
    refine same_tableOf hentries (by simp) haction hclosed ?_
    rw [List.forall_mem_cons, List.forall_mem_singleton]
    exact ⟨⟨_, hmob, Value.same_refl trivial⟩, hnested commands hcommands⟩
  | rotateJoints =>
    simp only [readParams, Except.bind_eq_ok_iff, required_eq_ok_iff, readItems_asText_eq_ok_iff,
      closed_eq_ok_iff] at h
    obtain ⟨keys, ⟨_, hkeys, rfl⟩, -, hclosed, h⟩ := h
    cases h
    refine same_tableOf hentries (by simp) haction hclosed ?_
    rw [List.forall_mem_singleton]
    exact ⟨_, hkeys, Value.same_refl (wellKeyed_texts keys)⟩

/-- Commands that were read one after the other are written as they were. -/
theorem same_listToData_of_readFrom {items : List Value}
    (hitems : ∀ d ∈ items, ∀ c, read d = .ok c → same c.toData d = true) {i : Nat}
    {commands : List Command} (h : readFrom i items = .ok commands) :
    same (.list (listToData commands)) (.list items) = true := by
  rw [same, Value.sameItems_iff]
  induction items generalizing i commands with
  | nil =>
    cases h
    exact .nil
  | cons d items ih =>
    rw [List.forall_mem_cons] at hitems
    rw [readFrom] at h
    obtain ⟨c, hc, h⟩ := Except.bind_eq_ok_iff.mp h
    obtain ⟨rest, hrest, h⟩ := Except.bind_eq_ok_iff.mp h
    cases h
    rw [under_eq_ok_iff, Except.mapError_eq_ok_iff] at hc
    exact .cons (hitems.1 c hc) (ih hitems.2 hrest)

/-- What was read as a command, or as a list of commands, is written as it was. -/
theorem same_toData_and_list {d : Value} (hd : d.WellKeyed) :
    (∀ c, read d = .ok c → same c.toData d = true) ∧
      ∀ commands, readList d = .ok commands → same (.list (listToData commands)) d = true := by
  -- Nested commands are two steps down, so lists are carried along.
  induction d using Data.induction with
  | list items ih =>
    rw [Data.wellKeyed_list_iff] at hd
    refine ⟨fun c hc => absurd hc (by simp [read]), fun commands h => ?_⟩
    exact same_listToData_of_readFrom (fun d hmem => (ih d hmem (hd d hmem)).1) h
  | table entries ih =>
    refine ⟨fun c hc => ?_, fun commands h => absurd h (by simp [readList])⟩
    rw [Data.wellKeyed_table_iff] at hd
    rw [read] at hc
    cases haction : readAction entries with
    | error reason =>
      rw [haction] at hc
      exact absurd hc (by simp)
    | ok a =>
      rw [haction] at hc
      refine same_toData_of_readParams hd.1 (readAction_eq_ok_iff.mp haction) ?_
        (Except.mapError_eq_ok_iff.mp hc)
      intro commands hcommands
      rw [readNested_eq] at hcommands
      cases hget : entries.get? "behaviors" with
      | none =>
        rw [hget] at hcommands
        exact absurd hcommands (by simp)
      | some w =>
        rw [hget] at hcommands
        have hmem := Table.mem_of_get? hget
        exact ⟨w, rfl, (ih _ hmem (hd.2 _ hmem)).2 commands (under_eq_ok_iff.mp hcommands)⟩
  | _ => exact ⟨fun c hc => absurd hc (by simp [read]), fun cs h => absurd h (by simp [readList])⟩

/-- **What was read as a command is written as it was.** -/
theorem same_toData {d : Value} (hd : d.WellKeyed) {c : Command} (h : read d = .ok c) :
    same c.toData d = true :=
  (same_toData_and_list hd).1 c h

end Command

namespace Node

open Record

attribute [local simp] toData

/-! ## Nodes -/

omit [HasKind ε] in
theorem allToData_eq (l : List (Node ε)) : allToData l = l.map toData := by
  induction l with
  | nil => rfl
  | cons n l ih => rw [allToData, ih, List.map_cons]

/-- A table that starts with the name of a kind is read as a node of it. -/
theorem read_named (kind : NodeKind) (fields : List (String × Data ε)) :
    read (.table (("type", .text kind.name) :: fields)) =
      orUnknown kind (("type", .text kind.name) :: fields)
        (assemble kind (("type", .text kind.name) :: fields)
          (readChildren "children" (("type", .text kind.name) :: fields))
          fun key => readSlot key (("type", .text kind.name) :: fields)) := by
  have hkind : declaredKind (("type", (.text kind.name : Data ε)) :: fields) = .ok kind := by
    unfold declaredKind
    rw [Table.get?_cons, if_pos rfl, Option.bind_some, Data.text?]
    simp only [NodeKind.ofName?_name]
  rw [read, hkind]

/-- **A tree is read back from its written form** if what its unknown nodes hold is read as them. -/
theorem read_toData (n : Node ε)
    (h : ∀ u ∈ n.nodes, u.isUnknown = true → read u.toData = u) : read n.toData = n := by
  induction n using induction with
  | step n ih =>
    rw [nodes_eq, List.forall_mem_cons] at h
    -- Whatever the kind of the node is, its children are read back.
    have hchildren : ∀ c ∈ n.children, read c.toData = c := fun c hc =>
      ih c hc fun u hu => h.2 u (List.mem_flatMap.mpr ⟨c, hc, hu⟩)
    cases n with
    | control kind children =>
      have hread : (children.map toData).map read = children := by
        rw [List.map_map]
        exact (List.map_congr_left hchildren).trans (List.map_id _)
      rw [toData, allToData_eq]
      refine (read_named (.control kind) _).trans ?_
      simp [readChildren_eq, Data.list?, hread, assemble, checkControl, required, asList, under,
        Except.mapError, closed, unknownKeys, Table.keys, orUnknown, bind, Except.bind]
    | whileLoop condition child =>
      have hchild := hchildren child (by simp [children])
      cases condition with
      | none =>
        rw [toData]
        refine (read_named .whileLoop _).trans ?_
        simp [assemble, readSlot, hchild, closed, unknownKeys, Table.keys, orUnknown]
      | some condition =>
        have hcondition := hchildren condition (by simp [children])
        rw [toData]
        refine (read_named .whileLoop _).trans ?_
        simp [assemble, readSlot, hchild, hcondition, closed, unknownKeys, Table.keys, orUnknown]
    | ifThen condition thenChild elseChild =>
      have hcondition := hchildren condition (by simp [children])
      have hthen := hchildren thenChild (by simp [children])
      cases elseChild with
      | none =>
        rw [toData]
        refine (read_named .ifThen _).trans ?_
        simp [assemble, readSlot, hcondition, hthen, closed, unknownKeys, Table.keys, orUnknown]
      | some elseChild =>
        have helse := hchildren elseChild (by simp [children])
        rw [toData]
        refine (read_named .ifThen _).trans ?_
        simp [assemble, readSlot, hcondition, hthen, helse, closed, unknownKeys, Table.keys,
          orUnknown]
    | wait seconds =>
      rw [toData]
      exact read_named .wait _
    | action name commands =>
      have hcommands : Command.readList (.list (Command.listToData commands) : Data ε) =
          .ok commands := Command.readFrom_listToData 0 commands
      rw [toData]
      refine (read_named .action _).trans ?_
      simp [assemble, readLeaf, required, asText, hcommands, under, Except.mapError, closed,
        unknownKeys, Table.keys, orUnknown, bind, Except.bind, pure, Except.pure]
    | trigger event =>
      rw [toData]
      exact read_named .trigger _
    | unknown declared raw reason => exact h.1 rfl

/-! ## Trees that were read -/

open Bestiary.Tree Value

/-- Every node of a tree that was read was read from something. -/
theorem exists_read_of_mem_nodes {v : Value} {u : Behavior} (hu : u ∈ (read v).nodes) :
    ∃ w : Value, u = read w := by
  induction v using Tree.induction with
  | leaf v hv =>
    have hread := read_of_table?_eq_none hv
    rw [hread, nodes, List.mem_singleton] at hu
    exact ⟨v, hu.trans hread.symm⟩
  | node entries ih =>
    cases hkind : kindOf? (.table entries) with
    | none =>
      obtain ⟨reason, hread⟩ := read_foreign hkind
      rw [hread, nodes, List.mem_singleton] at hu
      exact ⟨_, hu.trans hread.symm⟩
    | some kind =>
      have hread := read_table hkind
      cases hn : assembled kind entries with
      | error reason =>
        rw [hn, orUnknown] at hread
        rw [hread, nodes, List.mem_singleton] at hu
        exact ⟨_, hu.trans hread.symm⟩
      | ok n =>
        rw [hn, orUnknown] at hread
        rw [hread, nodes_eq, (reflects_of_assembled hn).children] at hu
        rcases List.mem_cons.mp hu with hu | hu
        · exact ⟨_, hu.trans hread.symm⟩
        · obtain ⟨c, hc, hu⟩ := List.mem_flatMap.mp hu
          obtain ⟨v, hv, rfl⟩ := List.mem_map.mp hc
          exact ih kind v hv hu

/-- An unknown node holds what was read as it. -/
theorem toData_of_isUnknown {v : Value} (h : (read v).isUnknown = true) : (read v).toData = v := by
  cases v with
  | table entries =>
    cases hkind : kindOf? (.table entries) with
    | none =>
      obtain ⟨reason, hread⟩ := read_foreign hkind
      simp [hread]
    | some kind =>
      have hread := read_table hkind
      cases hn : assembled kind entries with
      | error reason => simp [hread, hn, orUnknown]
      | ok n =>
        rw [hread, hn, orUnknown, (reflects_of_assembled hn).known] at h
        exact absurd h (by simp)
  | _ => rw [read_of_table?_eq_none rfl, toData]

/-- **A tree that was read is read back from its written form.** -/
theorem read_toData_read (v : Value) : read (read v).toData = read v := by
  refine read_toData (read v) fun u hu hunknown => ?_
  obtain ⟨w, rfl⟩ := exists_read_of_mem_nodes hu
  rw [toData_of_isUnknown hunknown]

/-! ## What was read is written -/

/-- A table with the type and the fields of a node, and nothing else, is the same as its written
form. -/
theorem same_named (kind : NodeKind) {entries : Table Value} {fields : List (String × Value)}
    (hentries : entries.keys.Nodup) (hfields : ("type" :: Table.keys fields).Nodup)
    (hkind : kindOf? (.table entries) = some kind)
    (hclosed : ∀ k ∈ entries.keys, k ∈ "type" :: Table.keys fields)
    (hsame : ∀ e ∈ fields, ∃ w, entries.get? e.1 = some w ∧ same e.2 w = true) :
    same (.table (("type", .text kind.name) :: fields)) (.table entries) = true := by
  refine same_table_of_get? hfields hentries hclosed (List.forall_mem_cons.mpr ⟨?_, hsame⟩)
  rw [kindOf?_table] at hkind
  obtain ⟨name, hname, hkind⟩ := Option.bind_eq_some_iff.mp hkind
  obtain ⟨d, hd, hname⟩ := Option.bind_eq_some_iff.mp hname
  refine ⟨d, hd, ?_⟩
  cases d with
  | text s =>
    obtain rfl := Option.some.inj hname
    simp [same, NodeKind.name_of_ofName? hkind]
  | _ => exact absurd hname (by simp [Data.text?])

/-- What is written of a child is the same as what it was read from. -/
abbrev WritesBack (v : Value) : Prop := same (read v).toData v = true

theorem same_control {entries : Table Value} {c : ControlKind} {n : Behavior}
    (hentries : entries.keys.Nodup) (hkind : kindOf? (.table entries) = some (.control c))
    (hbelow : ∀ v ∈ childValues (.control c) entries, WritesBack v)
    (h : assembled (.control c) entries = .ok n) : same n.toData (.table entries) = true := by
  obtain ⟨hclosed, items, hitems, rfl⟩ := assembled_control_eq_ok_iff.mp h
  rw [toData, allToData_eq]
  refine same_named _ hentries (by simp) hkind hclosed ?_
  rw [List.forall_mem_singleton]
  refine ⟨_, hitems, ?_⟩
  rw [childValues_control c hitems] at hbelow
  rw [List.map_map, same, sameItems_iff, List.forall₂_map_left_iff, List.forall₂_same]
  exact hbelow

/-- A child that is written in a slot. -/
theorem mem_childValues {kind : NodeKind} {entries : Table Value} {s : Slot} {v : Value}
    (hs : s ∈ kind.layout.slots) (hv : entries.get? s.field = some v) :
    v ∈ childValues kind entries :=
  List.mem_append_right _ (List.mem_filterMap.mpr ⟨s, hs, hv⟩)

theorem same_whileLoop {entries : Table Value} {n : Behavior} (hentries : entries.keys.Nodup)
    (hkind : kindOf? (.table entries) = some .whileLoop)
    (hbelow : ∀ v ∈ childValues .whileLoop entries, WritesBack v)
    (h : assembled .whileLoop entries = .ok n) : same n.toData (.table entries) = true := by
  obtain ⟨hclosed, child, hchild, rfl⟩ := assembled_whileLoop_eq_ok_iff.mp h
  have hwrites : WritesBack child :=
    hbelow child (mem_childValues (s := ⟨"child", true, _⟩) (.tail _ (.head _)) hchild)
  cases hcondition : entries.get? "condition" with
  | none =>
    rw [Option.map_none, toData]
    refine same_named .whileLoop hentries (by simp) hkind (fun k hk => ?_) ?_
    · simpa [NodeKind.keys, NodeKind.layout, Table.keys,
        Table.ne_of_get?_eq_none hcondition hk] using hclosed k hk
    · rw [List.forall_mem_singleton]
      exact ⟨child, hchild, hwrites⟩
  | some condition =>
    have hcwrites : WritesBack condition :=
      hbelow condition (mem_childValues (s := ⟨"condition", false, _⟩) (.head _) hcondition)
    rw [Option.map_some, toData]
    refine same_named .whileLoop hentries (by simp) hkind hclosed ?_
    rw [List.forall_mem_cons, List.forall_mem_singleton]
    exact ⟨⟨condition, hcondition, hcwrites⟩, child, hchild, hwrites⟩

theorem same_ifThen {entries : Table Value} {n : Behavior} (hentries : entries.keys.Nodup)
    (hkind : kindOf? (.table entries) = some .ifThen)
    (hbelow : ∀ v ∈ childValues .ifThen entries, WritesBack v)
    (h : assembled .ifThen entries = .ok n) : same n.toData (.table entries) = true := by
  obtain ⟨hclosed, c, t, hc, ht, rfl⟩ := assembled_ifThen_eq_ok_iff.mp h
  have hcwrites : WritesBack c :=
    hbelow c (mem_childValues (s := ⟨"condition", true, _⟩) (.head _) hc)
  have htwrites : WritesBack t :=
    hbelow t (mem_childValues (s := ⟨"then_child", true, _⟩) (.tail _ (.head _)) ht)
  cases helse : entries.get? "else_child" with
  | none =>
    rw [Option.map_none, toData]
    refine same_named .ifThen hentries (by simp) hkind (fun k hk => ?_) ?_
    · simpa [NodeKind.keys, NodeKind.layout, Table.keys,
        Table.ne_of_get?_eq_none helse hk] using hclosed k hk
    · rw [List.forall_mem_cons, List.forall_mem_singleton]
      exact ⟨⟨c, hc, hcwrites⟩, t, ht, htwrites⟩
  | some e =>
    have hewrites : WritesBack e := hbelow e
      (mem_childValues (s := ⟨"else_child", false, _⟩) (.tail _ (.tail _ (.head _))) helse)
    rw [Option.map_some, toData]
    refine same_named .ifThen hentries (by simp) hkind hclosed ?_
    rw [List.forall_mem_cons, List.forall_mem_cons, List.forall_mem_singleton]
    exact ⟨⟨c, hc, hcwrites⟩, ⟨t, ht, htwrites⟩, e, helse, hewrites⟩

/-- **A table that was read as a node is written as it was**, if what is below it is. -/
theorem same_toData_of_assembled {kind : NodeKind} {entries : Table Value} {n : Behavior}
    (hentries : Data.WellKeyed (.table entries)) (hkind : kindOf? (.table entries) = some kind)
    (hbelow : ∀ v ∈ childValues kind entries, WritesBack v)
    (h : assembled kind entries = .ok n) : same n.toData (.table entries) = true := by
  have hkeys := (Data.wellKeyed_table_iff.mp hentries).1
  cases kind with
  | control c => exact same_control hkeys hkind hbelow h
  | whileLoop => exact same_whileLoop hkeys hkind hbelow h
  | ifThen => exact same_ifThen hkeys hkind hbelow h
  | wait =>
    obtain ⟨hclosed, seconds, hseconds, rfl⟩ := assembled_wait_eq_ok_iff.mp h
    refine same_named .wait hkeys (by simp) hkind hclosed ?_
    rw [List.forall_mem_singleton]
    exact ⟨_, hseconds, same_refl trivial⟩
  | action =>
    obtain ⟨hclosed, name, d, commands, hname, hd, hcommands, rfl⟩ :=
      assembled_action_eq_ok_iff.mp h
    refine same_named .action hkeys (by simp) hkind hclosed ?_
    rw [List.forall_mem_cons, List.forall_mem_singleton]
    exact ⟨⟨_, hname, same_refl trivial⟩, d, hd,
      (Command.same_toData_and_list (hentries.get? hd)).2 commands hcommands⟩
  | trigger =>
    obtain ⟨hclosed, event, hevent, rfl⟩ := assembled_trigger_eq_ok_iff.mp h
    refine same_named .trigger hkeys (by simp) hkind hclosed ?_
    rw [List.forall_mem_singleton]
    exact ⟨_, hevent, same_refl trivial⟩

/-- What is written in the places for children has no key twice either. -/
theorem wellKeyed_of_mem_childValues {kind : NodeKind} {entries : Table Value} {v : Value}
    (hentries : Data.WellKeyed (.table entries)) (hv : v ∈ childValues kind entries) :
    v.WellKeyed := by
  rcases List.mem_append.mp hv with hv | hv
  · unfold childList? at hv
    cases hd : kind.layout.listField.bind entries.get? with
    | none =>
      rw [hd] at hv
      exact absurd hv List.not_mem_nil
    | some d =>
      rw [hd] at hv
      obtain ⟨field, -, hfield⟩ := Option.bind_eq_some_iff.mp hd
      have hkeyed := hentries.get? hfield
      cases d with
      | list items => exact Data.wellKeyed_list_iff.mp hkeyed v hv
      | _ => exact absurd hv List.not_mem_nil
  · obtain ⟨s, -, hs⟩ := List.mem_filterMap.mp hv
    exact hentries.get? hs

/-- **What was read as a tree is written as it was**, unknown nodes included. -/
theorem same_toData_read {v : Value} (hv : v.WellKeyed) : same (read v).toData v = true := by
  induction v using Tree.induction with
  | leaf v hleaf =>
    rw [read_of_table?_eq_none hleaf, toData]
    exact same_refl hv
  | node entries ih =>
    by_cases hunknown : (read (.table entries : Value)).isUnknown = true
    · rw [toData_of_isUnknown hunknown]
      exact same_refl hv
    · cases hkind : kindOf? (.table entries) with
      | none =>
        obtain ⟨reason, hread⟩ := read_foreign hkind
        exact absurd (by rw [hread, isUnknown]) hunknown
      | some kind =>
        have hread := read_table hkind
        cases hn : assembled kind entries with
        | error reason =>
          rw [hn, orUnknown] at hread
          exact absurd (by rw [hread, isUnknown]) hunknown
        | ok n =>
          rw [hread, hn, orUnknown]
          exact same_toData_of_assembled hv hkind
            (fun w hw => ih kind w hw (wellKeyed_of_mem_childValues hv hw)) hn

end Node

end Bestiary
