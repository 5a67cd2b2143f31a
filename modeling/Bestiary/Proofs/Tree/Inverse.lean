import Bestiary.Proofs.Tree.Local

/-!
# Edits that are undone

In a tree without unknown nodes every edit that adds something is undone by deleting what it added,
and every edit that moves something, or turns a control node into another, by moving or turning it
back. What comes back is the tree as it was, with its keys in their order.

* `swapItem?_eq_some_iff` is what a swap does; swaps undo themselves (`swapItem?_swapItem?`) and
  look the same from both ends (`swapItem?_neg`).
* `Inserts` is what it is to add a child: `exists_inserts_of_withChild` and
  `inserts_of_withSlotFilled` say that both edits which add children do.
* `exists_retyped_back` and `commandsChanged_undo` are about kinds and about commands.
* `edits_undone` puts them together.
-/

namespace Bestiary.Tree

/-! ## Lists -/

section Items

variable {α : Type} {items items' : List α} {i j d : Int} {a b : α}

/-- Lists with the same items at all positions are equal. -/
theorem ext_itemAt? (h : ∀ j, itemAt? items j = itemAt? items' j) : items = items' := by
  refine List.ext_getElem? fun n => ?_
  rw [← itemAt?_ofNat, ← itemAt?_ofNat, h]

theorem itemAt?_length (items : List α) : itemAt? items items.length = none := by
  rw [show (items.length : Int) = Int.ofNat items.length from rfl, itemAt?_ofNat]
  simp

theorem itemAt?_concat (items : List α) (a : α) (j : Int) :
    itemAt? (items ++ [a]) j = if j = items.length then some a else itemAt? items j := by
  unfold itemAt?
  by_cases hneg : j < 0
  · rw [if_pos hneg, if_pos hneg, if_neg (by omega)]
  · rw [if_neg hneg, if_neg hneg, List.getElem?_append]
    split
    · rw [if_neg (by omega)]
    · by_cases hj : j = items.length
      · simp [hj]
      · rw [if_neg hj, List.getElem?_eq_none (by simp; omega), List.getElem?_eq_none (by omega)]

/-- An item that was added at the end can be removed there. -/
theorem removeItem?_concat (items : List α) (a : α) :
    removeItem? (items ++ [a]) items.length = some items := by
  rw [removeItem?, itemAt?_concat, if_pos rfl, Option.map_some, Int.toNat_natCast,
    List.eraseIdx_append_of_length_le (Nat.le_refl _), Nat.sub_self]
  simp

/-- **A swap** puts each of two items in the place of the other and leaves the rest alone. -/
theorem swapItem?_eq_some_iff :
    swapItem? items i d = some items' ↔
      ∃ a b, itemAt? items i = some a ∧ itemAt? items (i + d) = some b ∧
        ∀ j, itemAt? items' j =
          if j = i + d then some a else if j = i then some b else itemAt? items j := by
  have hswap : ∀ {a b}, itemAt? items i = some a → itemAt? items (i + d) = some b → ∀ j,
      itemAt? (replaceItem (replaceItem items i b) (i + d) a) j =
        if j = i + d then some a else if j = i then some b else itemAt? items j := by
    intro a b ha hb j
    have hb' : itemAt? (replaceItem items i b) (i + d) = some b := by
      rw [itemAt?_replaceItem ha, hb, ite_self]
    rw [itemAt?_replaceItem hb', itemAt?_replaceItem ha]
  constructor
  · intro h
    obtain ⟨a, ha, h⟩ := Option.bind_eq_some_iff.mp h
    obtain ⟨b, hb, h⟩ := Option.bind_eq_some_iff.mp h
    obtain rfl := Option.some.inj h
    exact ⟨a, b, ha, hb, hswap ha hb⟩
  · rintro ⟨a, b, ha, hb, hitems'⟩
    have hsame := ext_itemAt? fun j => (hswap ha hb j).trans (hitems' j).symm
    simp [swapItem?, ha, hb, hsame]

/-- A swap undoes itself. -/
theorem swapItem?_swapItem? (h : swapItem? items i d = some items') :
    swapItem? items' i d = some items := by
  obtain ⟨a, b, ha, hb, hitems'⟩ := swapItem?_eq_some_iff.mp h
  refine swapItem?_eq_some_iff.mpr ⟨b, a, ?_, ?_, fun j => ?_⟩
  · rw [hitems', if_pos rfl]
    split
    · rename_i hi
      rw [← ha, ← hb, ← hi]
    · rfl
  · rw [hitems', if_pos rfl]
  · rw [hitems']
    split
    · rename_i hj
      rw [hj, hb]
    · split
      · rename_i hj
        rw [hj, ha]
      · rfl

/-- A swap is the same from both ends. -/
theorem swapItem?_neg (items : List α) (i d : Int) :
    swapItem? items (i + d) (-d) = swapItem? items i d := by
  refine Option.ext fun items' => ?_
  simp only [swapItem?_eq_some_iff, Int.add_neg_cancel_right]
  constructor
  · rintro ⟨b, a, hb, ha, hitems'⟩
    refine ⟨a, b, ha, hb, fun j => (hitems' j).trans ?_⟩
    split_ifs with hi hd <;> simp_all
  · rintro ⟨a, b, ha, hb, hitems'⟩
    refine ⟨b, a, hb, ha, fun j => (hitems' j).trans ?_⟩
    split_ifs with hi hd <;> simp_all

end Items

/-! ## Children -/

/-- A child is added at a position where there was none; it can be removed there, and all other
children keep their positions. -/
structure Inserts (i : Int) (new : Value) (t u : Table Value) : Prop where
  before : childAt? (.table t) i = none
  after : ∀ j, childAt? (.table u) j = if j = i then some new else childAt? (.table t) j
  back : withoutChild i u = some t

section Children

variable {t u : Table Value} {kind : NodeKind} {i d : Int}

/-- A child is added at the end of the list of a control node. -/
theorem inserts_item {field : String} {items : List Value}
    (hkind : kindOf? (.table t) = some kind) (hlist : kind.layout.listField = some field)
    (hitems : t.get? field = some (.list items)) (new : Value) :
    Inserts items.length new t (t.set field (.list (items ++ [new]))) := by
  have hkind' := kindOf?_set_listField hkind hlist (.list (items ++ [new]))
  have hthere := listUnder?_eq_some_iff.mpr hitems
  refine ⟨?_, fun j => ?_, ?_⟩
  · rw [childAt?_eq_bind_listUnder? hkind hlist, hthere]
    exact itemAt?_length items
  · rw [childAt?_eq_bind_listUnder? hkind hlist, childAt?_eq_bind_listUnder? hkind' hlist, hthere,
      listUnder?_set]
    exact itemAt?_concat items new j
  · rw [withoutChild_of_listField hkind' hlist, listUnder?_set, Option.bind_some,
      removeItem?_concat, Option.map_some, Table.set_set, Table.set_eq_self hitems]

/-- A child is put in an empty slot that need not be filled. -/
theorem inserts_slot {s : Slot} (hkind : kindOf? (.table t) = some kind)
    (hs : itemAt? kind.layout.slots i = some s) (hempty : t.get? s.field = none)
    (hspare : s.required = false) (new : Value) : Inserts i new t (t.set s.field new) := by
  have hmem := mem_of_itemAt? hs
  have hlist := (slots_spec hmem).1
  have hkind' := kindOf?_set_slot hkind hmem new
  refine ⟨?_, fun j => childAt?_set_slot hkind hs new j, ?_⟩
  · rw [childAt?_of_slots hkind hlist, hs, Option.bind_some, hempty]
  · rw [withoutChild_of_slots hkind' hlist, hs, Option.bind_some, hspare]
    simp [Table.has, Table.erase_set, Table.erase_of_not_mem (Table.get?_eq_none_iff.mp hempty)]

/-- An empty slot of a sound node need not be filled. -/
theorem required_eq_false {s : Slot} (hkind : kindOf? (.table t) = some kind)
    (h : Sound (.table t)) (hs : s ∈ kind.layout.slots) (hempty : t.get? s.field = none) :
    s.required = false := by
  refine eq_false_of_ne_true fun hr => ?_
  obtain ⟨v, hv⟩ := ((sound_known_iff hkind).mp h).1.filled s hs hr
  exact absurd (hempty.symm.trans hv) (by simp)

theorem exists_inserts_of_withChild {child : Option Value} (h : Sound (.table t))
    (hu : withChild child t = some u) :
    ∃ i new, Inserts i new t u ∧ ∀ c, child = some c → new = c := by
  obtain ⟨kind, hkind, -⟩ := Option.bind_eq_some_iff.mp hu
  cases hlist : kind.layout.listField with
  | some field =>
    obtain ⟨items, hitems⟩ := ((sound_known_iff hkind).mp h).1.listed field hlist
    rw [withChild_of_listField hkind hlist,
      listUnder?_of_there (listUnder?_eq_some_iff.mpr hitems)] at hu
    obtain rfl := Option.some.inj hu
    refine ⟨items.length, child.getD newAction, inserts_item hkind hlist hitems _, ?_⟩
    rintro c rfl
    rfl
  | none =>
    rw [withChild_of_slots hkind hlist] at hu
    obtain ⟨s, hs, rfl⟩ := Option.map_eq_some_iff.mp hu
    have hmem := List.mem_of_find?_eq_some hs
    have hempty : t.get? s.field = none := by simpa [Table.has] using List.find?_some hs
    obtain ⟨i, hi⟩ := exists_itemAt?_of_mem hmem
    refine ⟨i, child.getD (.table s.filler),
      inserts_slot hkind hi hempty (required_eq_false hkind h hmem hempty) _, ?_⟩
    rintro c rfl
    rfl

theorem inserts_of_withSlotFilled (h : Sound (.table t)) (hu : withSlotFilled i t = some u) :
    ∃ new, Inserts i new t u := by
  obtain ⟨kind, hkind, hu⟩ := Option.bind_eq_some_iff.mp hu
  obtain ⟨s, hs, hu⟩ := Option.bind_eq_some_iff.mp hu
  split at hu
  · exact absurd hu (by simp)
  · rename_i hempty
    obtain rfl := Option.some.inj hu
    have hempty : t.get? s.field = none := by simpa [Table.has] using hempty
    exact ⟨.table s.filler, inserts_slot hkind hs hempty
      (required_eq_false hkind h (mem_of_itemAt? hs) hempty) _⟩

theorem withChildMoved_neg (d i : Int) : withChildMoved (-d) (i + d) = withChildMoved d i := by
  funext t
  simp only [withChildMoved, swapItem?_neg]

/-- A move of a child undoes itself. -/
theorem withChildMoved_withChildMoved (h : withChildMoved d i t = some u) :
    withChildMoved d i u = some t := by
  obtain ⟨kind, hkind, -⟩ := Option.bind_eq_some_iff.mp h
  cases hlist : kind.layout.listField with
  | none => exact absurd h (by simp [withChildMoved, hkind, hlist])
  | some field =>
    rw [withChildMoved_of_listField hkind hlist] at h
    obtain ⟨items, hitems, h⟩ := Option.bind_eq_some_iff.mp h
    obtain ⟨items', hitems', rfl⟩ := Option.map_eq_some_iff.mp h
    rw [withChildMoved_of_listField (kindOf?_set_listField hkind hlist _) hlist, listUnder?_set,
      Option.bind_some, swapItem?_swapItem? hitems', Option.map_some, Table.set_set,
      Table.set_eq_self (listUnder?_eq_some_iff.mp hitems)]

theorem kindOf?_table_eq_some_iff :
    kindOf? (.table t) = some kind ↔ t.get? "type" = some (.text kind.name) := by
  rw [kindOf?_table]
  constructor
  · intro h
    obtain ⟨name, hname, hkind⟩ := Option.bind_eq_some_iff.mp h
    obtain ⟨d, hd, htext⟩ := Option.bind_eq_some_iff.mp hname
    cases d with
    | text s =>
      obtain rfl := Option.some.inj htext
      rw [hd, NodeKind.name_of_ofName? hkind]
    | _ => exact absurd htext (by simp [Data.text?])
  · intro h
    rw [h]
    exact NodeKind.ofName?_name kind

/-- A control node with a list of children becomes another control node by its type alone. -/
theorem retyped_control {c : ControlKind} {items : List Value}
    (hkind : kindOf? (.table t) = some (.control c))
    (hitems : t.get? "children" = some (.list items)) (c' : ControlKind) :
    retyped (.control c') t = if c = c' then none else some (t.set "type" (.text c'.name)) := by
  have hname : (NodeKind.control c).name = (NodeKind.control c').name ↔ c = c' := by
    refine ⟨fun h => ?_, fun h => by rw [h]⟩
    have hsame := congrArg NodeKind.ofName? h
    rw [NodeKind.ofName?_name, NodeKind.ofName?_name] at hsame
    exact NodeKind.control.inj (Option.some.inj hsame)
  have hchildren : (t.set "type" (.text (NodeKind.control c').name)).get? "children" =
      some (.list items) := by
    rw [Table.get?_set, if_neg (by decide), hitems]
  unfold retyped
  simp only [kindOf?_table_eq_some_iff.mp hkind, Option.bind_some, Data.text?, hname,
    NodeKind.ofName?_name, hchildren, Data.list?]
  rfl

/-- A control node can be made another one, which can be made what it was. -/
theorem exists_retyped_back {c c' : ControlKind} (hkind : kindOf? (.table t) = some (.control c))
    (h : Sound (.table t)) (hcc : c ≠ c') :
    ∃ u, retyped (.control c') t = some u ∧ retyped (.control c) u = some t := by
  obtain ⟨items, hitems⟩ := ((sound_known_iff hkind).mp h).1.listed "children" rfl
  have hkind' : kindOf? (.table (t.set "type" (.text c'.name))) = some (.control c') := by
    rw [kindOf?_table_eq_some_iff, Table.get?_set, if_pos rfl]
    rfl
  have hitems' : (t.set "type" (.text c'.name)).get? "children" = some (.list items) := by
    rw [Table.get?_set, if_neg (by decide), hitems]
  have htype : t.get? "type" = some (.text c.name) := kindOf?_table_eq_some_iff.mp hkind
  refine ⟨_, (retyped_control hkind hitems c').trans (if_neg hcc), ?_⟩
  rw [retyped_control hkind' hitems', if_neg hcc.symm, Table.set_set, Table.set_eq_self htype]

end Children

/-! ## Commands -/

section Commands

variable {t u : Table Value} {key : String} {positions : Path} {create : Bool}
  {f g : List Value → Option (List Value)} {items items' : List Value}

/-- Where readable commands lead there is a list. -/
theorem exists_list_of_holder? {holder : String × Table Value} (hread : ListsReadable key t)
    (hthere : ∃ items, t.get? key = some (.list items))
    (h : holder? key positions t = some holder) :
    ∃ items, holder.2.get? holder.1 = some (.list items) := by
  induction positions generalizing key t with
  | nil =>
    obtain rfl := Option.some.inj h
    exact hthere
  | cons i positions ih =>
    obtain ⟨xs, command, nested, hxs, hcommand, hnested, h⟩ := holder?_cons_eq_some_iff.mp h
    have hreadable := readable_listUnder? hread hxs _ (mem_of_itemAt? hcommand)
    obtain ⟨rfl, haction⟩ := eq_behaviors_of_nestedKey? hnested
    obtain ⟨a, ha, -, hlist⟩ := Command.isReadable_table_iff.mp hreadable
    obtain rfl := Option.some.inj (haction.symm.trans ha)
    obtain ⟨below, hbelow, -⟩ := hlist rfl
    exact ih (listsReadable_nested hnested hreadable) ⟨below, hbelow⟩ h

/-- **A change of commands is undone** where it was made. -/
theorem commandsChanged_undo (hlist : listAt? commandsKey positions t = some items)
    (hf : f items = some items') (hg : g items' = some items)
    (hu : commandsChanged create positions f t = some u) (create' : Bool) :
    commandsChanged create' positions g u = some t := by
  obtain ⟨haction, hu⟩ := Option.ite_none_right_eq_some.mp hu
  have haction' : isAction u = true := by
    obtain ⟨xs, rfl⟩ := exists_set_of_updateList? hu
    rw [isAction, Table.get?_set, if_neg (by decide)]
    exact haction
  rw [commandsChanged, if_pos haction', updateList?_undo hlist hf hg hu]

/-- A swap of commands undoes itself. -/
theorem commandsChanged_swap {i d : Int}
    (h : commandsChanged false positions (fun items => swapItem? items i d) t = some u) :
    commandsChanged false positions (fun items => swapItem? items i d) u = some t := by
  obtain ⟨-, hu⟩ := Option.ite_none_right_eq_some.mp h
  obtain ⟨items, items', hlist, hitems'⟩ := exists_updateList?_there_iff.mp ⟨u, hu⟩
  exact commandsChanged_undo hlist hitems' (swapItem?_swapItem? hitems') h false

/-- A command that was added to a sound action node was added to a list that is there. -/
theorem exists_listAt?_of_commandsChanged (h : Sound (.table t))
    (hu : commandsChanged true positions f t = some u) :
    ∃ items, listAt? commandsKey positions t = some items := by
  obtain ⟨haction, hu⟩ := Option.ite_none_right_eq_some.mp hu
  obtain ⟨hthere, hread⟩ := exists_commands_of_sound haction h
  obtain ⟨holder, -, -, hholder, -⟩ := exists_updateList?_iff.mp ⟨u, hu⟩
  obtain ⟨below, hbelow⟩ := exists_list_of_holder? hread hthere hholder
  exact ⟨below, by rw [listAt?_eq_bind, hholder, Option.bind_some, listUnder?_eq_some_iff, hbelow]⟩

end Commands

/-! ## Edits -/

section Edits

variable {root v c : Value} {path : Path} {i : Int}

/-- The nodes of a sound tree are sound. -/
theorem sound_of_nodeAt? (h : Sound root) (hv : nodeAt? root path = some v) : Sound v := by
  induction path generalizing root with
  | nil => exact Option.some.inj hv ▸ h
  | cons i path ih =>
    obtain ⟨c, hc, hv⟩ := Option.bind_eq_some_iff.mp hv
    exact ih (sound_of_writtenAt h (childAt?_eq_some_iff.mp hc)) hv

theorem editParent_concat (root : Value) (path : Path) (i : Int)
    (f : Int → Table Value → Option (Table Value)) :
    editParent root (path ++ [i]) f = editAt root path (f i) := by
  rw [editParent, List.getLast?_concat, List.dropLast_concat]

theorem editSiblings_concat (root : Value) (path front : Path) (i : Int)
    (f : Int → List Value → Option (List Value)) :
    editSiblings root path (front ++ [i]) f =
      editAt root path (commandsChanged false front (f i)) := by
  rw [editSiblings, List.getLast?_concat, List.dropLast_concat]
  rfl

/-- A child that was added to a node of a tree is removed from there. -/
theorem delete_of_inserts {change : Table Value → Option (Table Value)} {t u : Table Value}
    {new : Value} (ht : nodeAt? root path = some (.table t)) (hu : change t = some u)
    (hat : nodeAt? (editAt root path change) path = some (.table u)) (h : Inserts i new t u) :
    nodeAt? root (path ++ [i]) = none ∧
      (∀ j, nodeAt? (editAt root path change) (path ++ [j]) =
        if j = i then some new else nodeAt? root (path ++ [j])) ∧
      delete (editAt root path change) (path ++ [i]) = root := by
  refine ⟨?_, fun j => ?_, ?_⟩
  · rw [nodeAt?_concat, ht, Option.bind_some, h.before]
  · rw [nodeAt?_concat, nodeAt?_concat, ht, hat, Option.bind_some, Option.bind_some, h.after]
  · rw [delete, editParent_concat, editAt_eq_of_undo ht hu h.back]

/-- **Structural edits are undone.** In a tree that is read without unknown nodes, at any path:

* a child that is added, or put in a slot, is the only new one, and deleting it there gives back
  the tree;
* a node that is moved is moved back from where it is, and so is a command;
* a control node that was made another one is made again what it was;
* a command that is added is the last of a list that was there, and deleting it there gives back
  the tree. -/
theorem edits_undone (hroot : ∀ u ∈ (Node.read root).nodes, u.isUnknown = false) (path : Path) :
    (∀ child, insertChild root path child ≠ root → ∃ i new,
      nodeAt? root (path ++ [i]) = none ∧
      (∀ j, nodeAt? (insertChild root path child) (path ++ [j]) =
        if j = i then some new else nodeAt? root (path ++ [j])) ∧
      (∀ c, child = some c → new = c) ∧
      delete (insertChild root path child) (path ++ [i]) = root) ∧
    (∀ slot, fillSlot root path slot ≠ root → ∃ new,
      nodeAt? root (path ++ [slot]) = none ∧
      (∀ j, nodeAt? (fillSlot root path slot) (path ++ [j]) =
        if j = slot then some new else nodeAt? root (path ++ [j])) ∧
      delete (fillSlot root path slot) (path ++ [slot]) = root) ∧
    (∀ i d, move (move root (path ++ [i]) d) (path ++ [i + d]) (-d) = root) ∧
    (∀ v c c', nodeAt? root path = some v → kindOf? v = some (.control c) → c ≠ c' →
      retype (retype root path (.control c')) path (.control c) = root) ∧
    (∀ positions command, insertCommand root path positions command ≠ root → ∃ items,
      commandsAt? root path positions = some items ∧
      deleteCommand (insertCommand root path positions command) path
        (positions ++ [(items.length : Int)]) = root) ∧
    ∀ positions i d,
      moveCommand (moveCommand root path (positions ++ [i]) d) path (positions ++ [i + d]) (-d) =
        root := by
  have hsound : ∀ {v}, nodeAt? root path = some v → Sound v := by
    refine sound_of_nodeAt? ((sound_iff root).mpr fun u hu hunknown => ?_)
    exact absurd (hroot u hu) (by simp [hunknown])
  refine ⟨?_, ?_, ?_, ?_, ?_, ?_⟩
  · intro child hne
    obtain ⟨t, u, ht, hu, hat⟩ := exists_of_editAt_ne hne
    obtain ⟨i, new, hinserts, hnew⟩ := exists_inserts_of_withChild (hsound ht) hu
    obtain ⟨hbefore, hafter, hback⟩ := delete_of_inserts ht hu hat hinserts
    exact ⟨i, new, hbefore, hafter, hnew, hback⟩
  · intro slot hne
    obtain ⟨t, u, ht, hu, hat⟩ := exists_of_editAt_ne hne
    obtain ⟨new, hinserts⟩ := inserts_of_withSlotFilled (hsound ht) hu
    exact ⟨new, delete_of_inserts ht hu hat hinserts⟩
  · intro i d
    rw [move, move, editParent_concat, editParent_concat, withChildMoved_neg]
    exact editAt_editAt (fun t u => withChildMoved_withChildMoved) root path
  · intro v c c' hv hkind hcc
    cases v with
    | table t =>
      obtain ⟨u, hu, hback⟩ := exists_retyped_back hkind (hsound hv) hcc
      exact editAt_eq_of_undo hv hu hback
    | _ => exact absurd (show none = some (NodeKind.control c) from hkind) (by simp)
  · intro positions command hne
    obtain ⟨t, u, ht, hu, -⟩ := exists_of_editAt_ne hne
    obtain ⟨items, hitems⟩ := exists_listAt?_of_commandsChanged (hsound ht) hu
    have haction := (Option.ite_none_right_eq_some.mp hu).1
    refine ⟨items, commandsAt?_eq_some_iff.mpr ⟨t, ht, haction, hitems⟩, ?_⟩
    rw [deleteCommand, editSiblings_concat]
    refine editAt_eq_of_undo ht hu (commandsChanged_undo
      (f := fun items => some (items ++ [command.getD newCommand])) hitems rfl ?_ hu false)
    exact removeItem?_concat items _
  · intro positions i d
    simp only [moveCommand, editSiblings_concat, swapItem?_neg]
    exact editAt_editAt (fun t u => commandsChanged_swap) root path

/-- The tree that a new behavior starts with, in a loop without a condition: the condition is
filled and deleted, the tree made a sequence and back, and a command added and deleted. -/
theorem edits_undone_starter :
    let root : Value := .table [("type", .text "While"), ("child", starter)]
    delete (fillSlot root [] 0) [0] = root ∧
      retype (retype root [1] (.control .sequence)) [1] (.control .forever) = root ∧
      deleteCommand (insertCommand root [1, 0] [] none) [1, 0] [1] = root := by
  intro root
  have hroot : ∀ u ∈ (Node.read root).nodes, u.isUnknown = false := by decide
  obtain ⟨-, hfill, -⟩ := edits_undone hroot []
  obtain ⟨-, -, -, hretype, -⟩ := edits_undone hroot [1]
  obtain ⟨-, -, -, -, hinsert, -⟩ := edits_undone hroot [1, 0]
  refine ⟨?_, hretype starter .forever .sequence rfl rfl (by decide), ?_⟩
  · have hne : fillSlot root [] 0 ≠ root := fun h =>
      absurd (congrArg (fun v => (nodeAt? v [0]).isSome) h) (by decide)
    obtain ⟨-, -, -, hback⟩ := hfill 0 hne
    exact hback
  · have hne : insertCommand root [1, 0] [] none ≠ root := fun h =>
      absurd (congrArg (fun v => (commandAt? v [1, 0] [1]).isSome) h) (by decide)
    obtain ⟨items, hitems, hback⟩ := hinsert [] none hne
    obtain rfl := Option.some.inj (show some _ = some items from hitems)
    exact hback

end Edits

end Bestiary.Tree
