import Bestiary.Behavior.Compile
import Bestiary.Proofs.Behavior.Written
import Bestiary.Proofs.Data.Reordered

/-!
# Trees with their keys in another order

What a tree is compiled to does not depend on the order of the keys in it. Commands are read as the
same commands; nodes are read as nodes of the same kind or as unknown nodes, which compile to
nothing, whatever they hold.

* `Command.read_and_readList_of_reordered`: a command with its keys in another order is read as the
  same command.
* `Tree.exists_assembled_of_reordered`: a node of a kind stays a node of that kind.
* `Node.plan_read_of_reordered`: the plan stays the same.
* `Node.same_toData_read_of_reordered`: what is written stays the same, up to the order of keys.
-/

namespace Bestiary

open Value (Reordered same)

/-! ## Looking leaves up -/

namespace Value.Reordered

variable {t u : Table Value} {key : String}

/-- A leaf that is found in one table is found in the other. -/
theorem get?_leaf (h : Reordered (.table t) (.table u)) {v : Value} (hv : t.get? key = some v)
    (hlist : v.list? = none) (htable : v.table? = none) : u.get? key = some v := by
  obtain ⟨w, hw, hvw⟩ := h.exists_get? hv
  rw [hw, eq_of_leaf_same hvw.same hlist htable]

theorem get?_none (h : Reordered (.table t) (.table u)) (ht : t.get? key = none) :
    u.get? key = none := by
  have hagree := agree_get? h.nodup h.same key
  rwa [ht, agree_none_iff] at hagree

theorem get?_texts (h : Reordered (.table t) (.table u)) {keys : List String}
    (hkeys : t.get? key = some (.texts keys)) : u.get? key = some (.texts keys) := by
  obtain ⟨w, hw, hsame⟩ := h.exists_get? hkeys
  obtain ⟨items, rfl, hitems⟩ := exists_of_list_same hsame.same
  rw [hw]
  refine congrArg (some ∘ Data.list) ?_
  clear hkeys hw hsame
  induction keys generalizing items with
  | nil =>
    cases hitems
    rfl
  | cons key keys ih =>
    obtain _ | ⟨hkey, hrest⟩ := hitems
    rw [List.map_cons, ih _ hrest, eq_of_leaf_same hkey rfl rfl]

theorem bind_text?_eq (h : Reordered (.table t) (.table u)) (key : String) :
    (t.get? key).bind Data.text? = (u.get? key).bind Data.text? := by
  obtain ⟨ht, hu⟩ | ⟨v, w, ht, hu, hvw⟩ := h.get? key
  · rw [ht, hu]
  · rw [ht, hu, Option.bind_some, Option.bind_some, hvw.text?_eq]

end Value.Reordered

/-! ## Commands -/

namespace Command

open Record

/-- The parameters of an action are the same in any order. -/
theorem readParams_of_reordered {t u : Table Value} (h : Reordered (.table t) (.table u))
    {nested nested' : Except Issue (List Command)}
    (hnested : ∀ commands, nested = .ok commands → nested' = .ok commands) {a : Action}
    {c : Command} (hc : readParams t nested a = .ok c) : readParams u nested' a = .ok c := by
  have hnumber : ∀ {key n}, t.get? key = some (.number n) → u.get? key = some (.number n) :=
    fun hn => h.get?_leaf hn rfl rfl
  cases a with
  | simple s =>
    simp only [readParams, Except.bind_eq_ok_iff, closed_eq_ok_iff] at hc ⊢
    obtain ⟨_, hclosed, hc⟩ := hc
    exact ⟨(), h.closed hclosed, hc⟩
  | moveTo =>
    simp only [readParams, Except.bind_eq_ok_iff, required_eq_ok_iff, asNumber_eq_ok_iff,
      closed_eq_ok_iff] at hc ⊢
    obtain ⟨x, ⟨_, hx, rfl⟩, y, ⟨_, hy, rfl⟩, _, hclosed, hc⟩ := hc
    exact ⟨x, ⟨_, hnumber hx, rfl⟩, y, ⟨_, hnumber hy, rfl⟩, (), h.closed hclosed, hc⟩
  | spawn what =>
    simp only [readParams, Except.bind_eq_ok_iff, optional_eq_ok_iff, readItems_asText_eq_ok_iff,
      closed_eq_ok_iff] at hc ⊢
    obtain ⟨o, ho, _, hclosed, hc⟩ := hc
    refine ⟨o, ?_, (), h.closed hclosed, hc⟩
    rcases ho with ⟨hnone, rfl⟩ | ⟨_, keys, hkeys, rfl, rfl⟩
    · exact .inl ⟨h.get?_none hnone, rfl⟩
    · exact .inr ⟨_, keys, h.get?_texts hkeys, rfl, rfl⟩
  | doForTime =>
    simp only [readParams, Except.bind_eq_ok_iff, required_eq_ok_iff, asNumber_eq_ok_iff,
      closed_eq_ok_iff] at hc ⊢
    obtain ⟨seconds, ⟨_, hseconds, rfl⟩, _, hclosed, hc⟩ := hc
    exact ⟨seconds, ⟨_, hnumber hseconds, rfl⟩, (), h.closed hclosed, hc⟩
  | transmit =>
    simp only [readParams, Except.bind_eq_ok_iff, required_eq_ok_iff, asText_eq_ok_iff,
      closed_eq_ok_iff] at hc ⊢
    obtain ⟨mobType, ⟨_, hmob, rfl⟩, commands, hcommands, _, hclosed, hc⟩ := hc
    exact ⟨mobType, ⟨_, h.get?_leaf hmob rfl rfl, rfl⟩, commands, hnested commands hcommands, (),
      h.closed hclosed, hc⟩
  | rotateJoints =>
    simp only [readParams, Except.bind_eq_ok_iff, required_eq_ok_iff, readItems_asText_eq_ok_iff,
      closed_eq_ok_iff] at hc ⊢
    obtain ⟨keys, ⟨_, hkeys, rfl⟩, _, hclosed, hc⟩ := hc
    exact ⟨keys, ⟨_, h.get?_texts hkeys, rfl⟩, (), h.closed hclosed, hc⟩

/-- Commands are read alike, one after the other, if each of them is. -/
theorem readFrom_of_reordered {items items' : List Value} (h : List.Forall₂ Reordered items items')
    (hread : ∀ d ∈ items, ∀ d', Reordered d d' → ∀ c, read d = .ok c → read d' = .ok c) {i : Nat}
    {commands : List Command} (hcommands : readFrom i items = .ok commands) :
    readFrom i items' = .ok commands := by
  induction h generalizing i commands with
  | nil => exact hcommands
  | cons hab _ ih =>
    rw [List.forall_mem_cons] at hread
    simp only [readFrom, Except.bind_eq_ok_iff, under_eq_ok_iff,
      Except.mapError_eq_ok_iff] at hcommands ⊢
    obtain ⟨c, hc, rest, hrest, hcommands⟩ := hcommands
    exact ⟨c, hread.1 _ hab c hc, rest, ih hread.2 hrest, hcommands⟩

/-- A table is read as the same command if the lists in it are read alike. -/
theorem read_table_of_reordered {t u : Table Value} (h : Reordered (.table t) (.table u))
    (hlists : ∀ e ∈ t, ∀ w, Reordered e.2 w →
      ∀ commands, readList e.2 = .ok commands → readList w = .ok commands)
    {c : Command} (hc : read (.table t) = .ok c) : read (.table u) = .ok c := by
  rw [read] at hc ⊢
  cases haction : readAction t with
  | error reason =>
    rw [haction] at hc
    exact absurd hc (by simp)
  | ok a =>
    rw [haction] at hc
    rw [readAction_eq_ok_iff, h.bind_text?_eq, ← readAction_eq_ok_iff] at haction
    rw [haction]
    rw [Except.mapError_eq_ok_iff] at hc ⊢
    refine readParams_of_reordered h (fun commands hcommands => ?_) hc
    rw [readNested_eq] at hcommands ⊢
    obtain ⟨ht, -⟩ | ⟨v, w, ht, hu, hvw⟩ := h.get? "behaviors"
    · rw [ht] at hcommands
      exact absurd hcommands (by simp)
    · rw [ht] at hcommands
      rw [hu]
      rw [under_eq_ok_iff] at hcommands
      exact under_eq_ok_iff.mpr (hlists _ (Table.mem_of_get? ht) w hvw commands hcommands)

/-- **A command with its keys in another order is read as the same command**, and so are lists of
commands. -/
theorem read_and_readList_of_reordered {d d' : Value} (h : Reordered d d') :
    (∀ c, read d = .ok c → read d' = .ok c) ∧
      ∀ commands, readList d = .ok commands → readList d' = .ok commands := by
  -- Nested commands are two steps down, so lists are carried along.
  induction d using Data.induction generalizing d' with
  | list items ih =>
    obtain ⟨items', rfl, hitems⟩ := h.exists_list
    refine ⟨fun c hc => absurd hc (by simp [read]), fun commands hcommands => ?_⟩
    rw [readList] at hcommands ⊢
    exact readFrom_of_reordered hitems (fun d hd d' hdd' => (ih d hd hdd').1) hcommands
  | table t ih =>
    obtain ⟨u, rfl⟩ := h.exists_table
    refine ⟨fun c hc => ?_, fun commands hc => absurd hc (by simp [readList])⟩
    exact read_table_of_reordered h (fun e he w hw => (ih e he hw).2) hc
  | alien e => exact e.elim
  | _ =>
    obtain rfl := h.eq_of_leaf rfl rfl
    exact ⟨fun _ hc => hc, fun _ hc => hc⟩

mutual

/-- What a command is written as has no key twice. -/
theorem wellKeyed_toData : ∀ c : Command, (c.toData : Value).WellKeyed
  | .simple _ => by simp [toData, tableOf, Data.WellKeyed, Data.EntriesWellKeyed]
  | .moveTo .. => by simp [toData, tableOf, Data.WellKeyed, Data.EntriesWellKeyed]
  | .spawn _ none => by simp [toData, tableOf, Data.WellKeyed, Data.EntriesWellKeyed]
  | .spawn _ (some keys) => by
    simpa [toData, tableOf, Data.WellKeyed, Data.EntriesWellKeyed] using wellKeyed_texts keys
  | .doForTime _ => by simp [toData, tableOf, Data.WellKeyed, Data.EntriesWellKeyed]
  | .transmit _ commands => by
    simpa [toData, tableOf, Data.WellKeyed, Data.EntriesWellKeyed] using
      wellKeyed_listToData commands
  | .rotateJoints keys => by
    simpa [toData, tableOf, Data.WellKeyed, Data.EntriesWellKeyed] using wellKeyed_texts keys

theorem wellKeyed_listToData :
    ∀ commands : List Command, (Data.list (listToData commands) : Value).WellKeyed
  | [] => by simp [listToData, Data.WellKeyed, Data.ItemsWellKeyed]
  | c :: commands => by
    rw [listToData, Data.wellKeyed_list_iff, List.forall_mem_cons]
    exact ⟨wellKeyed_toData c, Data.wellKeyed_list_iff.mp (wellKeyed_listToData commands)⟩

end

end Command

/-! ## Nodes -/

namespace Tree

variable {kind : NodeKind} {t u : Table Value}

theorem kindOf?_of_reordered (h : Reordered (.table t) (.table u)) :
    kindOf? (.table t) = kindOf? (.table u) := by
  rw [kindOf?_table, kindOf?_table, h.bind_text?_eq]

/-- A list has the same items, reordered, in the same places, so plans stay in their places. -/
theorem map_plan_of_reordered {items items' : List Value}
    (hitems : List.Forall₂ Reordered items items')
    (hplan : ∀ v ∈ items, ∀ w : Value, Reordered v w → (Node.read w).plan = (Node.read v).plan) :
    items'.map (fun w => (Node.read w).plan) = items.map fun v => (Node.read v).plan := by
  induction hitems with
  | nil => rfl
  | @cons v w _ _ hvw _ ih =>
    rw [List.forall_mem_cons] at hplan
    rw [List.map_cons, List.map_cons, hplan.1 w hvw, ih hplan.2]

/-- **A node of a kind stays a node of that kind**, with the same plan if the children have the
same. -/
theorem exists_assembled_of_reordered (h : Reordered (.table t) (.table u)) {n : Behavior}
    (hn : assembled kind t = .ok n) :
    ∃ n', assembled kind u = .ok n' ∧
      ((∀ v ∈ childValues kind t, ∀ w : Value, Reordered v w →
        (Node.read w).plan = (Node.read v).plan) → n'.plan = n.plan) := by
  cases kind with
  | control k =>
    obtain ⟨hclosed, items, hitems, rfl⟩ := assembled_control_eq_ok_iff.mp hn
    obtain ⟨w, hw, hsame⟩ := h.exists_get? hitems
    obtain ⟨items', rfl, hsames⟩ := hsame.exists_list
    refine ⟨_, assembled_control_eq_ok_iff.mpr ⟨h.closed hclosed, items', hw, rfl⟩,
      fun hplan => ?_⟩
    rw [childValues_control k hitems] at hplan
    have hplans := map_plan_of_reordered hsames hplan
    cases k <;> simp [Node.plan, Node.plans_eq, Function.comp_def, hplans]
  | whileLoop =>
    obtain ⟨hclosed, child, hchild, rfl⟩ := assembled_whileLoop_eq_ok_iff.mp hn
    obtain ⟨child', hchild', hsame⟩ := h.exists_get? hchild
    refine ⟨_, assembled_whileLoop_eq_ok_iff.mpr ⟨h.closed hclosed, child', hchild', rfl⟩,
      fun hplan => ?_⟩
    rw [Node.plan, Node.plan, hplan child
      (Node.mem_childValues (s := ⟨"child", true, _⟩) (.tail _ (.head _)) hchild) child' hsame]
  | ifThen =>
    obtain ⟨hclosed, condition, thenChild, hcondition, hthen, rfl⟩ :=
      assembled_ifThen_eq_ok_iff.mp hn
    obtain ⟨condition', hcondition', -⟩ := h.exists_get? hcondition
    obtain ⟨thenChild', hthen', hsame⟩ := h.exists_get? hthen
    refine ⟨_, assembled_ifThen_eq_ok_iff.mpr
      ⟨h.closed hclosed, condition', thenChild', hcondition', hthen', rfl⟩, fun hplan => ?_⟩
    rw [Node.plan, Node.plan, hplan thenChild
      (Node.mem_childValues (s := ⟨"then_child", true, _⟩) (.tail _ (.head _)) hthen) thenChild'
      hsame]
  | wait =>
    obtain ⟨hclosed, seconds, hseconds, rfl⟩ := assembled_wait_eq_ok_iff.mp hn
    exact ⟨_, assembled_wait_eq_ok_iff.mpr ⟨h.closed hclosed, seconds,
      h.get?_leaf hseconds rfl rfl, rfl⟩, fun _ => rfl⟩
  | action =>
    obtain ⟨hclosed, name, d, commands, hname, hd, hcommands, rfl⟩ :=
      assembled_action_eq_ok_iff.mp hn
    obtain ⟨d', hd', hsame⟩ := h.exists_get? hd
    exact ⟨_, assembled_action_eq_ok_iff.mpr ⟨h.closed hclosed, name, d', commands,
      h.get?_leaf hname rfl rfl, hd',
      (Command.read_and_readList_of_reordered hsame).2 commands hcommands, rfl⟩, fun _ => rfl⟩
  | trigger =>
    obtain ⟨hclosed, event, hevent, rfl⟩ := assembled_trigger_eq_ok_iff.mp hn
    exact ⟨_, assembled_trigger_eq_ok_iff.mpr ⟨h.closed hclosed, event,
      h.get?_leaf hevent rfl rfl, rfl⟩, fun _ => rfl⟩

end Tree

namespace Node

open Bestiary.Tree

/-- An unknown node has the plan of doing nothing. -/
theorem plan_of_isUnknown {n : Behavior} (h : n.isUnknown = true) : n.plan = idle := by
  cases n with
  | unknown declared raw reason => rfl
  | _ => exact absurd h (by simp [isUnknown])

theorem table?_eq_none_of_reordered {v w : Value} (h : Reordered v w) (hv : v.table? = none) :
    w.table? = none := by
  obtain ⟨_, _, rfl, rfl, -⟩ | ⟨_, _, rfl, rfl⟩ | ⟨-, -, rfl⟩ := h.cases
  · rfl
  · exact absurd hv (by simp [Data.table?])
  · exact hv

/-- **A known node stays known.** -/
theorem isUnknown_read_of_reordered {v w : Value} (h : Reordered v w)
    (hv : (read v).isUnknown = false) : (read w).isUnknown = false := by
  obtain ⟨t, kind, rfl, hkind, hn⟩ := exists_assembled hv
  obtain ⟨u, rfl⟩ := h.exists_table
  obtain ⟨n', hn', -⟩ := exists_assembled_of_reordered h hn
  rw [kindOf?_of_reordered h] at hkind
  rw [read_of_assembled hkind hn']
  exact (reflects_of_assembled hn').known

/-- **The order of keys does not matter to the plan of a tree.** -/
theorem plan_read_of_reordered {v w : Value} (h : Reordered v w) :
    (read w).plan = (read v).plan := by
  induction v using Tree.induction generalizing w with
  | leaf v hleaf =>
    rw [read_of_table?_eq_none hleaf, read_of_table?_eq_none (table?_eq_none_of_reordered h hleaf)]
    rfl
  | node t ih =>
    by_cases hknown : (read (.table t : Value)).isUnknown = true
    · have hknown' : (read w).isUnknown = true := by
        rw [← Bool.not_eq_false] at hknown ⊢
        exact mt (isUnknown_read_of_reordered h.symm) hknown
      rw [plan_of_isUnknown hknown, plan_of_isUnknown hknown']
    · rw [Bool.not_eq_true] at hknown
      obtain ⟨_, kind, heq, hkind, hn⟩ := exists_assembled hknown
      obtain rfl := Data.table.inj heq
      obtain ⟨u, rfl⟩ := h.exists_table
      obtain ⟨n', hn', hplan⟩ := exists_assembled_of_reordered h hn
      rw [kindOf?_of_reordered h] at hkind
      rw [read_of_assembled hkind hn']
      exact hplan fun c hc c' hcc' => ih kind c hc hcc'

/-- What a node is written as has no key twice if that of its children has not. -/
theorem wellKeyed_toData {n : Behavior} (hknown : n.isUnknown = false)
    (h : ∀ c ∈ n.children, c.toData.WellKeyed) : n.toData.WellKeyed := by
  cases n with
  | control kind children =>
    have hlist : (Data.list (allToData children)).WellKeyed := by
      rw [allToData_eq, Data.wellKeyed_list_iff]
      exact List.forall_mem_map.mpr h
    rw [toData, Data.wellKeyed_table_iff]
    simpa [Data.WellKeyed] using hlist
  | whileLoop condition child =>
    cases condition <;>
      simp_all [children, toData, Data.WellKeyed, Data.EntriesWellKeyed]
  | ifThen condition thenChild elseChild =>
    cases elseChild <;>
      simp_all [children, toData, Data.WellKeyed, Data.EntriesWellKeyed]
  | action name commands =>
    have hcommands := Command.wellKeyed_listToData commands
    rw [toData, Data.wellKeyed_table_iff]
    simpa [Data.WellKeyed] using hcommands
  | unknown declared raw reason => exact absurd hknown (by simp [isUnknown])
  | _ => simp [toData, Data.WellKeyed, Data.EntriesWellKeyed]

/-- What a tree is written as has no key twice if what it was read from has not. -/
theorem wellKeyed_toData_read {v : Value} (hv : v.WellKeyed) : (read v).toData.WellKeyed := by
  induction v using Tree.induction with
  | leaf v hleaf =>
    rw [read_of_table?_eq_none hleaf]
    exact hv
  | node t ih =>
    by_cases hunknown : (read (.table t : Value)).isUnknown = true
    · rw [toData_of_isUnknown hunknown]
      exact hv
    · rw [Bool.not_eq_true] at hunknown
      obtain ⟨_, kind, heq, -, hn⟩ := exists_assembled hunknown
      obtain rfl := Data.table.inj heq
      refine wellKeyed_toData hunknown fun c hc => ?_
      rw [(reflects_of_assembled hn).children] at hc
      obtain ⟨v, hmem, rfl⟩ := List.mem_map.mp hc
      exact ih kind v hmem (wellKeyed_of_mem_childValues hv hmem)

/-- **The order of keys in a tree is all that it decides in what is written.** -/
theorem same_toData_read_of_reordered {v w : Value} (h : Reordered v w) :
    same (read v).toData (read w).toData = true := by
  have hwritten := same_toData_read h.keyed'
  have hkeyed := wellKeyed_toData_read h.keyed'
  exact Value.same_trans (same_toData_read h.keyed)
    (Value.same_trans h.same (Value.same_symm hkeyed h.keyed' hwritten))

end Node

end Bestiary
