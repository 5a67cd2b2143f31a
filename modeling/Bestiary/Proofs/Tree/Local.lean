import Bestiary.Proofs.Tree.Place
import Bestiary.Tree.Operation

/-!
# Edits stay where they are addressed

Every edit of a tree is a change of one node. So it acts inside any subtree that it is addressed
into as it acts on that subtree by itself, and leaves everything beside the subtree alone. An edit
that is addressed to nothing, or to something that does not allow it, changes nothing at all.

* `TreeEdit.change?` is the node that an edit changes and what it does to it; `TreeEdit.attempt?`
  the tree after an edit that could be made.
* `TreeEdit.IsPossible` says what an edit needs to find at its place;
  `TreeEdit.exists_attempt?_iff`: that is exactly when it is made.
* `TreeEdit.below` addresses an edit into a subtree; `TreeEdit.apply_local` is the law.
-/

namespace Bestiary

open Bestiary.Tree

namespace Tree

/-! ## What the changes of a node need -/

/-- There is a list under a key, or nothing. -/
def MayList (key : String) (entries : Table Value) : Prop :=
  ∀ v, entries.get? key = some v → ∃ items, v = .list items

/-- A control node may have a list to add to, another node has an empty slot. -/
def HasRoom (entries : Table Value) : Prop :=
  ∃ kind, kindOf? (.table entries) = some kind ∧
    match kind.layout.listField with
    | some field => MayList field entries
    | none => ∃ s ∈ kind.layout.slots, entries.get? s.field = none

/-- The slot of the given number is there and empty. -/
def SlotIsEmpty (number : Int) (entries : Table Value) : Prop :=
  ∃ kind s, kindOf? (.table entries) = some kind ∧ itemAt? kind.layout.slots number = some s ∧
    entries.get? s.field = none

/-- The position is one of a slot that has to be filled. -/
def IsRequired (v : Value) (i : Int) : Prop :=
  ∃ kind s, kindOf? v = some kind ∧ itemAt? kind.layout.slots i = some s ∧ s.required = true

/-- The node has its children in a list. -/
def HasList (v : Value) : Prop :=
  ∃ kind field, kindOf? v = some kind ∧ kind.layout.listField = some field

section Changes

variable {t : Table Value} {i offset : Int} {key : String} {α : Type} {items : List α}

theorem exists_removeItem?_iff :
    (∃ rest, removeItem? items i = some rest) ↔ ∃ a, itemAt? items i = some a := by
  simp [removeItem?]

theorem exists_swapItem?_iff :
    (∃ swapped, swapItem? items i offset = some swapped) ↔
      (∃ a, itemAt? items i = some a) ∧ ∃ b, itemAt? items (i + offset) = some b := by
  simp [swapItem?, Option.bind_eq_some_iff]

theorem exists_dropKey?_iff : (∃ u, dropKey? key t = some u) ↔ ∃ v, t.get? key = some v := by
  unfold dropKey? Table.has
  cases t.get? key <;> simp

theorem exists_listUnder?_iff : (∃ items, listUnder? true key t = some items) ↔ MayList key t := by
  unfold listUnder? MayList
  cases t.get? key with
  | none => simp
  | some v => cases v <;> simp [Data.list?]

theorem exists_withChild_iff (child : Option Value) :
    (∃ u, withChild child t = some u) ↔ HasRoom t := by
  unfold HasRoom
  cases hkind : kindOf? (.table t) with
  | none => simp [withChild, hkind]
  | some kind =>
    simp only [Option.some.injEq, exists_eq_left']
    cases hlist : kind.layout.listField with
    | some field => simp [withChild_of_listField hkind hlist, exists_listUnder?_iff]
    | none => simp [withChild_of_slots hkind hlist, Table.has, ← Option.isSome_iff_exists]

theorem exists_withSlotFilled_iff {number : Int} :
    (∃ u, withSlotFilled number t = some u) ↔ SlotIsEmpty number t := by
  unfold withSlotFilled SlotIsEmpty Table.has
  cases kindOf? (.table t) with
  | none => simp
  | some kind =>
    cases hs : itemAt? kind.layout.slots number with
    | none => simp [hs]
    | some s => cases hget : t.get? s.field <;> simp [hs, hget]

/-- A child can be removed unless its slot has to be filled. -/
theorem exists_withoutChild_iff :
    (∃ u, withoutChild i t = some u) ↔
      (∃ c, childAt? (.table t) i = some c) ∧ ¬IsRequired (.table t) i := by
  cases hkind : kindOf? (.table t) with
  | none => simp [withoutChild, childAt?, hkind]
  | some kind =>
    cases hlist : kind.layout.listField with
    | some field =>
      have hspare : ¬IsRequired (.table t) i := by
        rintro ⟨kind', s, hkind', hs, -⟩
        obtain rfl := Option.some.inj (hkind.symm.trans hkind')
        rw [(slots_spec (mem_of_itemAt? hs)).1] at hlist
        exact absurd hlist (by simp)
      simp only [hspare, not_false_eq_true, and_true]
      rw [withoutChild_of_listField hkind hlist, childAt?_eq_bind_listUnder? hkind hlist]
      cases listUnder? false field t with
      | none => simp
      | some items => simp [← exists_removeItem?_iff]
    | none =>
      rw [withoutChild_of_slots hkind hlist, childAt?_of_slots hkind hlist]
      cases hs : itemAt? kind.layout.slots i with
      | none => simp
      | some s =>
        cases hget : t.get? s.field <;> cases hr : s.required <;>
          simp [IsRequired, Table.has, hkind, hs, hget, hr]

theorem exists_withChildMoved_iff :
    (∃ u, withChildMoved offset i t = some u) ↔
      HasList (.table t) ∧ (∃ c, childAt? (.table t) i = some c) ∧
        ∃ c, childAt? (.table t) (i + offset) = some c := by
  cases hkind : kindOf? (.table t) with
  | none => simp [withChildMoved, HasList, hkind]
  | some kind =>
    cases hlist : kind.layout.listField with
    | none => simp [withChildMoved, HasList, hkind, hlist]
    | some field =>
      rw [withChildMoved_of_listField hkind hlist, childAt?_eq_bind_listUnder? hkind hlist,
        childAt?_eq_bind_listUnder? hkind hlist]
      cases listUnder? false field t with
      | none => simp
      | some items => simp [HasList, hkind, hlist, ← exists_swapItem?_iff]

theorem exists_retyped_iff {kind : NodeKind} :
    (∃ u, retyped kind t = some u) ↔ (t.get? "type").bind Data.text? ≠ some kind.name := by
  unfold retyped
  cases (t.get? "type").bind Data.text? with
  | none => simp
  | some name =>
    by_cases hname : name = kind.name
    · simp [hname]
    · simp only [hname, if_false]
      split
      · split <;> simp [hname]
      · simp [hname]

end Changes

/-! ## What the changes of commands need -/

/-- A change of the list of commands that positions lead to, as a change of an action node. -/
def commandsChanged (create : Bool) (positions : Path) (f : List Value → Option (List Value))
    (entries : Table Value) : Option (Table Value) :=
  if isAction entries then updateList? create f commandsKey positions entries else none

/-- A change of one command, as a change of the list that it is in. -/
def commandChanged (f : Table Value → Option (Table Value)) (i : Int) (items : List Value) :
    Option (List Value) := do
  let changed ← f (← (← itemAt? items i).table?)
  pure (replaceItem items i (.table changed))

/-- The list of commands that positions lead to in the action node at a path. -/
def commandsAt? (root : Value) (path positions : Path) : Option (List Value) := do
  let entries ← (← nodeAt? root path).table?
  if isAction entries then listAt? commandsKey positions entries else none

section Commands

variable {root : Value} {path front positions : Path} {i : Int}
  {f : List Value → Option (List Value)}

theorem commandAt?_concat (root : Value) (path front : Path) (i : Int) :
    commandAt? root path (front ++ [i]) =
      ((commandsAt? root path front).bind (itemAt? · i)).bind Data.table? := by
  simp only [commandAt?, commandsAt?, List.getLast?_concat, List.dropLast_concat,
    Option.bind_eq_bind, Option.bind_some, Option.bind_assoc]
  refine Option.bind_congr fun v _ => Option.bind_congr fun entries _ => ?_
  split <;> rfl

theorem commandsAt?_eq_some_iff {items : List Value} :
    commandsAt? root path positions = some items ↔
      ∃ t, nodeAt? root path = some (.table t) ∧ isAction t = true ∧
        listAt? commandsKey positions t = some items := by
  simp [commandsAt?, Option.bind_eq_some_iff, table?_eq_some_iff]

/-- A list of commands that is there can be changed if it can be changed by itself. -/
theorem exists_commandsChanged_there_iff :
    (∃ w, update? (commandsChanged false positions f) path root = some w) ↔
      ∃ items items', commandsAt? root path positions = some items ∧ f items = some items' := by
  simp only [exists_update?_iff, commandsAt?_eq_some_iff, commandsChanged]
  constructor
  · rintro ⟨t, u, ht, hu⟩
    obtain ⟨haction, hu⟩ := Option.ite_none_right_eq_some.mp hu
    obtain ⟨items, items', hitems, hitems'⟩ := exists_updateList?_there_iff.mp ⟨u, hu⟩
    exact ⟨items, items', ⟨t, ht, haction, hitems⟩, hitems'⟩
  · rintro ⟨items, items', ⟨t, ht, haction, hitems⟩, hitems'⟩
    obtain ⟨u, hu⟩ := exists_updateList?_there_iff.mpr ⟨items, items', hitems, hitems'⟩
    exact ⟨t, u, ht, (if_pos haction).trans hu⟩

/-- A command can be added to a list that is there or that can be created. -/
theorem exists_commandsChanged_append_iff (command : Value) :
    (∃ w, update? (commandsChanged true positions fun items => some (items ++ [command])) path
        root = some w) ↔
      ∃ t holder, nodeAt? root path = some (.table t) ∧ isAction t = true ∧
        holder? commandsKey positions t = some holder ∧ MayList holder.1 holder.2 := by
  simp only [exists_update?_iff, commandsChanged, ← exists_listUnder?_iff]
  constructor
  · rintro ⟨t, u, ht, hu⟩
    obtain ⟨haction, hu⟩ := Option.ite_none_right_eq_some.mp hu
    obtain ⟨holder, items, -, hholder, hitems, -⟩ := exists_updateList?_iff.mp ⟨u, hu⟩
    exact ⟨t, holder, ht, haction, hholder, items, hitems⟩
  · rintro ⟨t, holder, ht, haction, hholder, items, hitems⟩
    obtain ⟨u, hu⟩ := exists_updateList?_iff (f := fun items => some (items ++ [command])).mpr
      ⟨holder, items, _, hholder, hitems, rfl⟩
    exact ⟨t, u, ht, (if_pos haction).trans hu⟩

/-- A command that is there can be changed if it can be changed by itself. -/
theorem exists_commandChanged_iff {g : Table Value → Option (Table Value)} :
    (∃ w, update? (commandsChanged false front (commandChanged g i)) path root = some w) ↔
      ∃ t u, commandAt? root path (front ++ [i]) = some t ∧ g t = some u := by
  simp only [exists_commandsChanged_there_iff, commandAt?_concat, commandChanged,
    Option.bind_eq_bind, Option.bind_eq_some_iff]
  constructor
  · rintro ⟨items, -, hitems, v, hv, t, ht, u, hu, -⟩
    exact ⟨t, u, ⟨v, ⟨items, hitems, hv⟩, ht⟩, hu⟩
  · rintro ⟨t, u, ⟨v, ⟨items, hitems, hv⟩, ht⟩, hu⟩
    exact ⟨items, _, hitems, v, hv, t, ht, u, hu, rfl⟩

end Commands

end Tree

namespace TreeEdit

/-! ## Edits as changes of one node -/

/-- The path of the node that an edit changes, and the change. None if there is nothing that the
edit ever does. -/
def change? : TreeEdit Value → Option (Path × (Table Value → Option (Table Value)))
  | .insertChild path child => some (path, withChild child)
  | .fillSlot path slot => some (path, withSlotFilled slot)
  | .delete path => path.getLast?.map fun i => (path.dropLast, withoutChild i)
  | .move path direction =>
    path.getLast?.map fun i => (path.dropLast, withChildMoved direction.offset i)
  | .retype path kind => some (path, retyped kind)
  | .setField path field value =>
    if field = "type" then none else some (path, fun t : Table Value => some (t.set field value))
  | .removeField path field => if field = "type" then none else some (path, dropKey? field)
  | .insertCommand path positions command =>
    some (path, commandsChanged true positions fun items =>
      some (items ++ [command.getD newCommand]))
  | .deleteCommand path command =>
    command.getLast?.map fun i =>
      (path, commandsChanged false command.dropLast fun items => removeItem? items i)
  | .moveCommand path command direction =>
    command.getLast?.map fun i =>
      (path, commandsChanged false command.dropLast fun items =>
        swapItem? items i direction.offset)
  | .retypeCommand path command action =>
    command.getLast?.map fun i =>
      (path, commandsChanged false command.dropLast (commandChanged (fun t : Table Value =>
        if (t.get? "action").bind Data.text? = some action.name then none
        else some (("action", .text action.name) :: action.defaults)) i))
  | .setParam path command param value =>
    if param = "action" then none
    else command.getLast?.map fun i =>
      (path, commandsChanged false command.dropLast
        (commandChanged (fun t : Table Value => some (t.set param value)) i))
  | .removeParam path command param =>
    if param = "action" then none
    else command.getLast?.map fun i =>
      (path, commandsChanged false command.dropLast (commandChanged (dropKey? param) i))

/-- The tree after an edit, if the edit can be made. -/
def attempt? (e : TreeEdit Value) (root : Value) : Option Value :=
  e.change?.bind fun change => update? change.2 change.1 root

theorem apply_eq (e : TreeEdit Value) (root : Value) :
    e.apply root = (e.attempt? root).getD root := by
  cases e with
  | delete path =>
    simp only [apply, Tree.delete, Tree.editParent, attempt?, change?]
    cases path.getLast? <;> rfl
  | move path direction =>
    simp only [apply, Tree.move, Tree.editParent, attempt?, change?]
    cases path.getLast? <;> rfl
  | setField path field value =>
    simp only [apply, Tree.setField, attempt?, change?]
    split <;> rfl
  | removeField path field =>
    simp only [apply, Tree.removeField, attempt?, change?]
    split <;> rfl
  | deleteCommand path command =>
    simp only [apply, Tree.deleteCommand, Tree.editSiblings, attempt?, change?]
    cases command.getLast? <;> rfl
  | moveCommand path command direction =>
    simp only [apply, Tree.moveCommand, Tree.editSiblings, attempt?, change?]
    cases command.getLast? <;> rfl
  | retypeCommand path command action =>
    simp only [apply, Tree.retypeCommand, Tree.editCommand, Tree.editSiblings, attempt?, change?]
    cases command.getLast? <;> rfl
  | setParam path command param value =>
    simp only [apply, Tree.setParam, Tree.editCommand, Tree.editSiblings, attempt?, change?]
    split
    · rfl
    · cases command.getLast? <;> rfl
  | removeParam path command param =>
    simp only [apply, Tree.removeParam, Tree.editCommand, Tree.editSiblings, attempt?, change?]
    split
    · rfl
    · cases command.getLast? <;> rfl
  | _ => rfl

/-! ## When an edit is made -/

/-- What an edit needs is there, and the layout of the nodes allows it. -/
def IsPossible (root : Value) : TreeEdit Value → Prop
  | .insertChild path _ => ∃ t, nodeAt? root path = some (.table t) ∧ HasRoom t
  | .fillSlot path slot => ∃ t, nodeAt? root path = some (.table t) ∧ SlotIsEmpty slot t
  | .delete path => ∃ front i, path = front ++ [i] ∧
    ∃ parent, nodeAt? root front = some (.table parent) ∧
      (∃ child, childAt? (.table parent) i = some child) ∧ ¬IsRequired (.table parent) i
  | .move path direction => ∃ front i, path = front ++ [i] ∧
    ∃ parent, nodeAt? root front = some (.table parent) ∧ HasList (.table parent) ∧
      (∃ child, childAt? (.table parent) i = some child) ∧
      ∃ child, childAt? (.table parent) (i + direction.offset) = some child
  | .retype path kind => ∃ t : Table Value, nodeAt? root path = some (.table t) ∧
    (t.get? "type").bind Data.text? ≠ some kind.name
  | .setField path field _ => field ≠ "type" ∧ ∃ t, nodeAt? root path = some (.table t)
  | .removeField path field => field ≠ "type" ∧
    ∃ (t : Table Value) (v : Value), nodeAt? root path = some (.table t) ∧ t.get? field = some v
  | .insertCommand path positions _ => ∃ t holder, nodeAt? root path = some (.table t) ∧
    isAction t = true ∧ holder? commandsKey positions t = some holder ∧ MayList holder.1 holder.2
  | .deleteCommand path command => ∃ front i, command = front ++ [i] ∧
    ∃ items, commandsAt? root path front = some items ∧ ∃ c, itemAt? items i = some c
  | .moveCommand path command direction => ∃ front i, command = front ++ [i] ∧
    ∃ items, commandsAt? root path front = some items ∧ (∃ c, itemAt? items i = some c) ∧
      ∃ c, itemAt? items (i + direction.offset) = some c
  | .retypeCommand path command action => ∃ t, commandAt? root path command = some t ∧
    (t.get? "action").bind Data.text? ≠ some action.name
  | .setParam path command param _ => param ≠ "action" ∧
    ∃ t, commandAt? root path command = some t
  | .removeParam path command param => param ≠ "action" ∧
    ∃ t v, commandAt? root path command = some t ∧ t.get? param = some v

section Possible

variable {root : Value} {path : Path}

/-- What is done at the last position of a path is done at the path above it. -/
theorem exists_last_iff {g : Path → Int → Path × (Table Value → Option (Table Value))} :
    (∃ w, ((path.getLast?.map (g path.dropLast)).bind fun c => update? c.2 c.1 root) = some w) ↔
      ∃ front i, path = front ++ [i] ∧ ∃ w, update? (g front i).2 (g front i).1 root = some w := by
  rcases List.eq_nil_or_concat' path with rfl | ⟨front, i, rfl⟩ <;> simp

/-- A command is changed where it is. -/
theorem exists_command_iff {command : Path} {g : Table Value → Option (Table Value)} :
    (∃ w, ((command.getLast?.map fun i =>
      (path, commandsChanged false command.dropLast (commandChanged g i))).bind fun c =>
        update? c.2 c.1 root) = some w) ↔
      ∃ t u, commandAt? root path command = some t ∧ g t = some u := by
  refine (exists_last_iff (g := fun front i =>
    (path, commandsChanged false front (commandChanged g i)))).trans ?_
  simp only [exists_commandChanged_iff]
  constructor
  · rintro ⟨front, i, rfl, h⟩
    exact h
  · rintro ⟨t, u, ht, hu⟩
    rcases List.eq_nil_or_concat' command with rfl | ⟨front, i, rfl⟩
    · exact absurd ht (by simp [commandAt?])
    · exact ⟨front, i, rfl, t, u, ht, hu⟩

/-- **An edit is made** iff what it needs is there and the layout allows it. -/
theorem exists_attempt?_iff (e : TreeEdit Value) :
    (∃ w, e.attempt? root = some w) ↔ e.IsPossible root := by
  cases e with
  | insertChild path child =>
    simp [attempt?, change?, IsPossible, exists_update?_iff, exists_withChild_iff]
  | fillSlot path slot =>
    simp [attempt?, change?, IsPossible, exists_update?_iff, exists_withSlotFilled_iff]
  | delete path =>
    refine (exists_last_iff (g := fun front i => (front, withoutChild i))).trans ?_
    simp [IsPossible, exists_update?_iff, exists_withoutChild_iff]
  | move path direction =>
    refine (exists_last_iff (g := fun front i =>
      (front, withChildMoved direction.offset i))).trans ?_
    simp [IsPossible, exists_update?_iff, exists_withChildMoved_iff]
  | retype path kind =>
    simp [attempt?, change?, IsPossible, exists_update?_iff, exists_retyped_iff]
  | setField path field value =>
    by_cases hfield : field = "type" <;>
      simp [attempt?, change?, IsPossible, exists_update?_iff, hfield]
  | removeField path field =>
    by_cases hfield : field = "type" <;>
      simp [attempt?, change?, IsPossible, exists_update?_iff, exists_dropKey?_iff, hfield]
  | insertCommand path positions command => exact exists_commandsChanged_append_iff _
  | deleteCommand path command =>
    refine (exists_last_iff (g := fun front i =>
      (path, commandsChanged false front fun items => removeItem? items i))).trans ?_
    simp [IsPossible, exists_commandsChanged_there_iff, exists_removeItem?_iff]
  | moveCommand path command direction =>
    refine (exists_last_iff (g := fun front i =>
      (path, commandsChanged false front fun items =>
        swapItem? items i direction.offset))).trans ?_
    simp [IsPossible, exists_commandsChanged_there_iff, exists_swapItem?_iff]
  | retypeCommand path command action =>
    refine exists_command_iff.trans ?_
    simp [IsPossible]
  | setParam path command param value =>
    by_cases hparam : param = "action"
    · simp [attempt?, change?, IsPossible, hparam]
    · simp only [attempt?, change?, IsPossible, hparam, if_false, exists_command_iff]
      simp [hparam]
  | removeParam path command param =>
    by_cases hparam : param = "action"
    · simp [attempt?, change?, IsPossible, hparam]
    · simp only [attempt?, change?, IsPossible, hparam, if_false, exists_command_iff]
      simp [exists_dropKey?_iff, hparam]

end Possible

/-! ## Edits of subtrees -/

/-- The path that an edit is addressed by. -/
def path {α : Type} : TreeEdit α → Path
  | .insertChild path _ | .fillSlot path _ | .delete path | .move path _ | .retype path _
  | .setField path _ _ | .removeField path _ | .insertCommand path _ _ | .deleteCommand path _
  | .moveCommand path _ _ | .retypeCommand path _ _ | .setParam path _ _ _
  | .removeParam path _ _ => path

/-- The edit addressed below the node at a path. -/
def below {α : Type} (front : Path) : TreeEdit α → TreeEdit α
  | .insertChild path child => .insertChild (front ++ path) child
  | .fillSlot path slot => .fillSlot (front ++ path) slot
  | .delete path => .delete (front ++ path)
  | .move path direction => .move (front ++ path) direction
  | .retype path kind => .retype (front ++ path) kind
  | .setField path field value => .setField (front ++ path) field value
  | .removeField path field => .removeField (front ++ path) field
  | .insertCommand path positions command => .insertCommand (front ++ path) positions command
  | .deleteCommand path command => .deleteCommand (front ++ path) command
  | .moveCommand path command direction => .moveCommand (front ++ path) command direction
  | .retypeCommand path command action => .retypeCommand (front ++ path) command action
  | .setParam path command param value => .setParam (front ++ path) command param value
  | .removeParam path command param => .removeParam (front ++ path) command param

/-- Whether an edit changes the node above the one that it is addressed to. -/
def changesParent {α : Type} : TreeEdit α → Bool
  | .delete _ | .move _ _ => true
  | _ => false

section Below

variable {root node : Value} {front : Path}

/-- Below a node an edit makes the same change. -/
theorem change?_below (e : TreeEdit Value) (h : e.changesParent = true → e.path ≠ [])
    (front : Path) : (e.below front).change? = e.change?.map fun c => (front ++ c.1, c.2) := by
  cases e with
  | delete path =>
    obtain ⟨init, i, rfl⟩ := (List.eq_nil_or_concat' path).resolve_left (h rfl)
    simp only [below, change?, ← List.append_assoc, List.getLast?_concat, List.dropLast_concat,
      Option.map_some]
  | move path direction =>
    obtain ⟨init, i, rfl⟩ := (List.eq_nil_or_concat' path).resolve_left (h rfl)
    simp only [below, change?, ← List.append_assoc, List.getLast?_concat, List.dropLast_concat,
      Option.map_some]
  | setField path field value =>
    simp only [below, change?]
    split <;> rfl
  | removeField path field =>
    simp only [below, change?]
    split <;> rfl
  | setParam path command param value =>
    simp only [below, change?]
    split <;> simp [Function.comp_def]
  | removeParam path command param =>
    simp only [below, change?]
    split <;> simp [Function.comp_def]
  | _ => simp [below, change?, Function.comp_def]

/-- An edit below a node puts the node, edited, in its place. -/
theorem attempt?_below (e : TreeEdit Value) (h : e.changesParent = true → e.path ≠ [])
    (hnode : nodeAt? root front = some node) :
    (e.below front).attempt? root = (e.attempt? node).bind fun w => replaceAt? w front root := by
  rw [attempt?, change?_below e h, Option.bind_map, attempt?, Option.bind_assoc]
  exact Option.bind_congr fun c _ => update?_append hnode c.2 c.1

/-- **Edits stay where they are addressed.** An edit below a node that is there makes of that node
what it makes of it as a tree of its own, and leaves every node alone that is neither above nor
below. Deleting and moving need a path of their own, since they change the node above. An edit that
does not find what it needs, or that the layout does not allow, leaves the tree as it was. -/
theorem apply_local (e : TreeEdit Value) (root : Value) :
    (∀ front node, nodeAt? root front = some node → (e.changesParent = true → e.path ≠ []) →
      nodeAt? ((e.below front).apply root) front = some (e.apply node) ∧
        ∀ q, ¬front <+: q → ¬q <+: front →
          nodeAt? ((e.below front).apply root) q = nodeAt? root q) ∧
      (¬e.IsPossible root → e.apply root = root) := by
  refine ⟨fun front node hnode h => ?_, fun h => ?_⟩
  · rw [apply_eq, apply_eq, attempt?_below e h hnode]
    cases e.attempt? node with
    | none => exact ⟨hnode, fun _ _ _ => rfl⟩
    | some w =>
      obtain ⟨root', hroot', hat, hapart⟩ := exists_replaceAt? hnode w
      rw [Option.bind_some, hroot']
      exact ⟨hat, hapart⟩
  · rw [← exists_attempt?_iff] at h
    rw [apply_eq, Option.eq_none_iff_forall_ne_some.mpr fun w hw => h ⟨w, hw⟩]
    rfl

/-- Beside the tree that a new behavior starts with, and which loses its only child, an action
without a list of commands stays as it is. No command is added below one that is not there, and no
list either. -/
theorem apply_local_starter :
    let idle : Value := .table [("type", .text "Action")]
    let root : Value := .table [("type", .text "Sequence"), ("children", .list [starter, idle])]
    nodeAt? ((TreeEdit.delete [0, 0]).apply root) [0] =
        some (.table [("type", .text "Forever"), ("children", .list [])]) ∧
      nodeAt? ((TreeEdit.delete [0, 0]).apply root) [1] = some idle ∧
      (TreeEdit.insertCommand [1] [0] none).apply root = root := by
  intro idle root
  obtain ⟨hinside, hapart⟩ := (apply_local (.delete [0]) root).1 [0] starter rfl (by simp [path])
  refine ⟨hinside, hapart [1] (by decide) (by decide), (apply_local _ root).2 ?_⟩
  rintro ⟨t, holder, ht, -, hholder, -⟩
  obtain rfl : [("type", .text "Action")] = t := Data.table.inj (Option.some.inj ht)
  exact absurd hholder (by simp [holder?, listUnder?, commandsKey])

end Below

end TreeEdit

end Bestiary
