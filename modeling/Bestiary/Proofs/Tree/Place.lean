import Bestiary.Proofs.Tree.Address
import Bestiary.Proofs.Tree.CommandEdit

/-!
# Changes in place

A change of the node at a path is the change of that node alone, put in its place, and so is a
change of a list of commands. What stands in a place can be put there again, and of two things that
are put in one place the later one counts.

* `update?_append`: a change below a node that is there is a change of that node.
* `exists_update?_iff`: a change can be made iff there is a table at the path that it can be made
  of.
* `replaceAt?_self`, `replaceAt?_replaceAt?`: the laws of places in trees.
* `editAt_eq_of_undo`: a change of one node is undone where it was made.
* `updateList?_undo` says so of lists of commands, at any depth.
-/

namespace Bestiary.Tree

variable {root node v c c' w : Value} {f : Value → Option Value}
  {change undo : Table Value → Option (Table Value)} {path : Path} {i : Int}

/-! ## Items -/

section Items

variable {α : Type} {items : List α} {a : α}

/-- What stands at a position can be put there again. -/
theorem replaceItem_self (h : itemAt? items i = some a) : replaceItem items i a = items := by
  unfold itemAt? at h
  split at h
  · exact absurd h (by simp)
  · obtain ⟨hlt, rfl⟩ := List.getElem?_eq_some_iff.mp h
    exact List.set_getElem_self hlt

/-- Of two items that are put at one position the later one counts. -/
theorem replaceItem_replaceItem (items : List α) (i : Int) (a b : α) :
    replaceItem (replaceItem items i a) i b = replaceItem items i b := List.set_set ..

theorem exists_itemAt?_of_mem (h : a ∈ items) : ∃ i, itemAt? items i = some a := by
  obtain ⟨n, hn⟩ := List.mem_iff_getElem?.mp h
  exact ⟨Int.ofNat n, (itemAt?_ofNat items n).trans hn⟩

end Items

/-! ## One step down -/

/-- A change of a child is the changed child put in its place. -/
theorem updateChild?_eq_bind (h : WrittenAt i c v) (f : Value → Option Value) :
    updateChild? f v i = (f c).bind fun c' => updateChild? (fun _ => some c') v i := by
  cases h with
  | item hkind hlist hitems hi =>
    cases hf : f c with
    | some c' =>
      rw [Option.bind_some, updateChild?_item hkind hlist hitems hi hf,
        updateChild?_item (f := fun _ => some c') hkind hlist hitems hi rfl]
    | none => simp [updateChild?, hkind, Data.table?, hlist, childList?, hitems, Data.list?, hi, hf]
  | slot hkind hlist hs hc =>
    cases hf : f c with
    | some c' =>
      rw [Option.bind_some, updateChild?_slot hkind hlist hs hc hf,
        updateChild?_slot (f := fun _ => some c') hkind hlist hs hc rfl]
    | none => simp [updateChild?, hkind, Data.table?, hlist, hs, hc, hf]

/-- A child can be put in its own place again. -/
theorem updateChild?_self (h : WrittenAt i c v) (hf : f c = some c) :
    updateChild? f v i = some v := by
  cases h with
  | item hkind hlist hitems hi =>
    rw [updateChild?_item hkind hlist hitems hi hf, replaceItem_self hi, Table.set_eq_self hitems]
  | slot hkind hlist hs hc =>
    rw [updateChild?_slot hkind hlist hs hc hf, Table.set_eq_self hc]

/-- What was put in the place of a child stands where the child stood. -/
theorem writtenAt_updateChild? (h : WrittenAt i c v) (hf : f c = some c')
    (hu : updateChild? f v i = some w) : WrittenAt i c' w := by
  rw [← childAt?_eq_some_iff, childAt?_updateChild? h hf hu, if_pos rfl]

/-- Of two values that are put in the place of a child the later one counts. -/
theorem updateChild?_updateChild? (h : WrittenAt i c v) (hf : f c = some c')
    (hu : updateChild? f v i = some w) (d : Value) :
    updateChild? (fun _ => some d) w i = updateChild? (fun _ => some d) v i := by
  cases h with
  | @item entries kind field items hkind hlist hitems hi =>
    obtain rfl := Option.some.inj ((updateChild?_item hkind hlist hitems hi hf).symm.trans hu)
    have hkind' := kindOf?_set_listField hkind hlist (.list (replaceItem items i c'))
    have hi' : itemAt? (replaceItem items i c') i = some c' := by
      rw [itemAt?_replaceItem hi, if_pos rfl]
    have hitems' : (entries.set field (.list (replaceItem items i c'))).get? field =
        some (.list (replaceItem items i c')) := by rw [Table.get?_set, if_pos rfl]
    rw [updateChild?_item (f := fun _ => some d) hkind' hlist hitems' hi' rfl,
      updateChild?_item (f := fun _ => some d) hkind hlist hitems hi rfl, Table.set_set,
      replaceItem_replaceItem]
  | @slot entries kind s hkind hlist hs hc =>
    obtain rfl := Option.some.inj ((updateChild?_slot hkind hlist hs hc hf).symm.trans hu)
    have hkind' := kindOf?_set_slot hkind (mem_of_itemAt? hs) c'
    have hc' : (entries.set s.field c').get? s.field = some c' := by
      rw [Table.get?_set, if_pos rfl]
    rw [updateChild?_slot (f := fun _ => some d) hkind' hlist hs hc' rfl,
      updateChild?_slot (f := fun _ => some d) hkind hlist hs hc rfl, Table.set_set]

/-! ## Children of a node -/

section Children

variable {t : Table Value} {kind : NodeKind} {field : String}

theorem withChild_of_listField (hkind : kindOf? (.table t) = some kind)
    (hlist : kind.layout.listField = some field) (child : Option Value) :
    withChild child t = (listUnder? true field t).map fun items =>
      t.set field (.list (items ++ [child.getD newAction])) := by
  unfold withChild listUnder?
  simp only [hkind, Option.bind_eq_bind, Option.bind_some, hlist]
  cases t.get? field with
  | none => rfl
  | some v => cases v <;> rfl

theorem withChild_of_slots (hkind : kindOf? (.table t) = some kind)
    (hlist : kind.layout.listField = none) (child : Option Value) :
    withChild child t = (kind.layout.slots.find? fun s => !t.has s.field).map fun s =>
      t.set s.field (child.getD (.table s.filler)) := by
  simp [withChild, hkind, hlist, Option.map_eq_bind]

theorem withoutChild_of_listField (hkind : kindOf? (.table t) = some kind)
    (hlist : kind.layout.listField = some field) (i : Int) :
    withoutChild i t = (listUnder? false field t).bind fun items =>
      (removeItem? items i).map fun rest => t.set field (.list rest) := by
  unfold withoutChild listUnder? childList?
  simp only [hkind, Option.bind_eq_bind, Option.bind_some, hlist]
  cases t.get? field with
  | none => rfl
  | some v => cases v <;> simp [Data.list?, Option.map_eq_bind]

theorem withoutChild_of_slots (hkind : kindOf? (.table t) = some kind)
    (hlist : kind.layout.listField = none) (i : Int) :
    withoutChild i t = (itemAt? kind.layout.slots i).bind fun s =>
      if s.required || !t.has s.field then none else some (t.erase s.field) := by
  simp [withoutChild, hkind, hlist]

theorem withChildMoved_of_listField (hkind : kindOf? (.table t) = some kind)
    (hlist : kind.layout.listField = some field) (offset i : Int) :
    withChildMoved offset i t = (listUnder? false field t).bind fun items =>
      (swapItem? items i offset).map fun swapped => t.set field (.list swapped) := by
  unfold withChildMoved listUnder? childList?
  simp only [hkind, Option.bind_eq_bind, Option.bind_some, hlist]
  cases t.get? field with
  | none => rfl
  | some v => cases v <;> simp [Data.list?, Option.map_eq_bind]

theorem childAt?_eq_bind_listUnder? (hkind : kindOf? (.table t) = some kind)
    (hlist : kind.layout.listField = some field) (i : Int) :
    childAt? (.table t) i = (listUnder? false field t).bind (itemAt? · i) := by
  rw [childAt?_of_listField hkind hlist]
  unfold listUnder?
  cases t.get? field <;> rfl

end Children

/-! ## Paths -/

/-- A path is followed part by part. -/
theorem nodeAt?_append (root : Value) (path more : Path) :
    nodeAt? root (path ++ more) = (nodeAt? root path).bind (nodeAt? · more) := by
  induction path generalizing root with
  | nil => rfl
  | cons i path ih =>
    rw [List.cons_append, nodeAt?, nodeAt?, Option.bind_assoc]
    exact Option.bind_congr fun c _ => ih c

theorem nodeAt?_concat (root : Value) (path : Path) (i : Int) :
    nodeAt? root (path ++ [i]) = (nodeAt? root path).bind (childAt? · i) := by
  rw [nodeAt?_append]
  refine Option.bind_congr fun v _ => ?_
  rw [nodeAt?]
  cases childAt? v i <;> rfl

/-- **A change below a node that is there is a change of that node.** -/
theorem update?_append (h : nodeAt? root path = some node)
    (change : Table Value → Option (Table Value)) (more : Path) :
    update? change (path ++ more) root =
      (update? change more node).bind fun w => replaceAt? w path root := by
  induction path generalizing root with
  | nil =>
    obtain rfl := Option.some.inj h
    rw [List.nil_append]
    exact (Option.bind_fun_some _).symm
  | cons i path ih =>
    obtain ⟨c, hc, hnode⟩ := Option.bind_eq_some_iff.mp h
    have hwritten := childAt?_eq_some_iff.mp hc
    rw [List.cons_append, update?, updateChild?_eq_bind hwritten, ih hnode, Option.bind_assoc]
    exact Option.bind_congr fun w _ => (updateChild?_eq_bind hwritten _).symm

/-- A change at a path is the changed table put in the place of the one that is there. -/
theorem update?_eq {t : Table Value} (h : nodeAt? root path = some (.table t))
    (change : Table Value → Option (Table Value)) :
    update? change path root = (change t).bind fun u => replaceAt? (.table u) path root := by
  have happend := update?_append h change []
  rw [List.append_nil] at happend
  rw [happend]
  change ((change t).map Data.table).bind _ = _
  rw [Option.bind_map]
  rfl

/-- **A change can be made** iff there is a table at the path that it can be made of. -/
theorem exists_update?_iff :
    (∃ w, update? change path root = some w) ↔
      ∃ t u, nodeAt? root path = some (.table t) ∧ change t = some u := by
  constructor
  · rintro ⟨w, hw⟩
    induction path generalizing root w with
    | nil =>
      obtain ⟨u, hu, -⟩ := Option.map_eq_some_iff.mp hw
      obtain ⟨t, ht, hu⟩ := Option.bind_eq_some_iff.mp hu
      exact ⟨t, u, congrArg some (table?_eq_some_iff.mp ht), hu⟩
    | cons i path ih =>
      obtain ⟨c, c', hwritten, hc'⟩ := exists_of_updateChild? hw
      obtain ⟨t, u, ht, hu⟩ := ih _ hc'
      refine ⟨t, u, ?_, hu⟩
      rw [nodeAt?, childAt?_eq_some_iff.mpr hwritten, Option.bind_some, ht]
  · rintro ⟨t, u, ht, hu⟩
    obtain ⟨w, hw, -⟩ := exists_replaceAt? ht (.table u)
    exact ⟨w, by rw [update?_eq ht, hu, Option.bind_some, hw]⟩

/-- What stands at a path can be put there again. -/
theorem replaceAt?_self (h : nodeAt? root path = some node) :
    replaceAt? node path root = some root := by
  induction path generalizing root with
  | nil => exact h.symm
  | cons i path ih =>
    obtain ⟨c, hc, hnode⟩ := Option.bind_eq_some_iff.mp h
    exact updateChild?_self (childAt?_eq_some_iff.mp hc) (ih hnode)

/-- Of two values that are put at one path the later one counts. -/
theorem replaceAt?_replaceAt? (h : nodeAt? root path = some node)
    (hw : replaceAt? v path root = some w) (c : Value) :
    replaceAt? c path w = replaceAt? c path root := by
  induction path generalizing root w with
  | nil => rfl
  | cons i path ih =>
    obtain ⟨x, hx, hnode⟩ := Option.bind_eq_some_iff.mp h
    have hwritten := childAt?_eq_some_iff.mp hx
    obtain ⟨x', hx', -⟩ := exists_replaceAt? hnode v
    have hwritten' := writtenAt_updateChild? hwritten hx' hw
    rw [replaceAt?, replaceAt?, updateChild?_eq_bind hwritten, updateChild?_eq_bind hwritten',
      ih hnode hx']
    exact Option.bind_congr fun d _ => updateChild?_updateChild? hwritten hx' hw d

/-- **A change that is made is undone** where it was made. -/
theorem update?_undo {t u : Table Value} (ht : nodeAt? root path = some (.table t))
    (hu : change t = some u) (hundo : undo u = some t) (hw : update? change path root = some w) :
    update? undo path w = some root := by
  rw [update?_eq ht, hu, Option.bind_some] at hw
  obtain ⟨w', hw', hat, -⟩ := exists_replaceAt? ht (.table u)
  obtain rfl := Option.some.inj (hw'.symm.trans hw)
  rw [update?_eq hat, hundo, Option.bind_some, replaceAt?_replaceAt? ht hw, replaceAt?_self ht]

/-- An edit that changes the tree changes a table at its path. -/
theorem exists_of_editAt_ne (h : editAt root path change ≠ root) :
    ∃ t u, nodeAt? root path = some (.table t) ∧ change t = some u ∧
      nodeAt? (editAt root path change) path = some (.table u) := by
  unfold editAt at h ⊢
  cases hw : update? change path root with
  | none =>
    rw [hw] at h
    exact absurd rfl h
  | some w =>
    obtain ⟨t, u, ht, hu⟩ := exists_update?_iff.mp ⟨w, hw⟩
    obtain ⟨w', hw', hat, -⟩ := exists_replaceAt? ht (.table u)
    rw [update?_eq ht, hu, Option.bind_some, hw'] at hw
    obtain rfl := Option.some.inj hw
    exact ⟨t, u, ht, hu, hat⟩

/-- **An edit of one node is undone** by the change that undoes what it did to the table there. -/
theorem editAt_eq_of_undo {t u : Table Value} (ht : nodeAt? root path = some (.table t))
    (hu : change t = some u) (hundo : undo u = some t) :
    editAt (editAt root path change) path undo = root := by
  obtain ⟨w, hw⟩ := exists_update?_iff.mpr ⟨t, u, ht, hu⟩
  rw [editAt, editAt, hw, Option.getD_some, update?_undo ht hu hundo hw, Option.getD_some]

/-- A change that undoes itself, made twice. -/
theorem editAt_editAt (h : ∀ t u, change t = some u → change u = some t) (root : Value)
    (path : Path) : editAt (editAt root path change) path change = root := by
  by_cases hne : editAt root path change = root
  · rw [hne, hne]
  · obtain ⟨t, u, ht, hu, -⟩ := exists_of_editAt_ne hne
    exact editAt_eq_of_undo ht hu (h t u hu)

/-! ## Lists of commands -/

variable {create create' : Bool} {f g : List Value → Option (List Value)} {key : String}
  {positions : Path} {t u : Table Value} {items items' : List Value}

theorem listUnder?_eq_some_iff :
    listUnder? false key t = some items ↔ t.get? key = some (.list items) := by
  simp [listUnder?_iff]

/-- A list that is there is found, whether or not it would be created. -/
theorem listUnder?_of_there (h : listUnder? false key t = some items) (create : Bool) :
    listUnder? create key t = some items :=
  listUnder?_iff.mpr (.inl (listUnder?_eq_some_iff.mp h))

/-- A list that was created has no items, so one with an item is there. -/
theorem listUnder?_of_itemAt? (h : listUnder? create key t = some items)
    (hi : itemAt? items i = some v) : listUnder? false key t = some items := by
  obtain hitems | ⟨-, -, rfl⟩ := listUnder?_iff.mp h
  · exact listUnder?_eq_some_iff.mpr hitems
  · exact absurd (mem_of_itemAt? hi) List.not_mem_nil

@[simp] theorem listUnder?_set (create : Bool) (key : String) (t : Table Value)
    (items : List Value) : listUnder? create key (t.set key (.list items)) = some items := by
  rw [listUnder?, Table.get?_set, if_pos rfl]
  rfl

/-- The table with the list that positions lead to from the one under `key`, and the key of that
list. The lists on the way are there; the last one need not be. -/
def holder? (key : String) : (positions : Path) → Table Value → Option (String × Table Value)
  | [], entries => some (key, entries)
  | i :: positions, entries => do
    let items ← listUnder? false key entries
    let command ← (← itemAt? items i).table?
    holder? (← nestedKey? command) positions command

theorem listAt?_cons_eq_some_iff :
    listAt? key (i :: positions) t = some items ↔
      ∃ xs command nested, listUnder? false key t = some xs ∧
        itemAt? xs i = some (.table command) ∧ nestedKey? command = some nested ∧
        listAt? nested positions command = some items := by
  simp [listAt?, Option.bind_eq_some_iff, table?_eq_some_iff]

theorem holder?_cons_eq_some_iff {holder : String × Table Value} :
    holder? key (i :: positions) t = some holder ↔
      ∃ xs command nested, listUnder? false key t = some xs ∧
        itemAt? xs i = some (.table command) ∧ nestedKey? command = some nested ∧
        holder? nested positions command = some holder := by
  simp [holder?, Option.bind_eq_some_iff, table?_eq_some_iff]

theorem listAt?_eq_bind (key : String) (positions : Path) (t : Table Value) :
    listAt? key positions t =
      (holder? key positions t).bind fun holder => listUnder? false holder.1 holder.2 := by
  induction positions generalizing key t with
  | nil => rfl
  | cons i positions ih =>
    simp only [listAt?, holder?, Option.bind_eq_bind, Option.bind_assoc, ih]

/-- **A list of commands can be changed** iff the positions lead to it and it can be changed by
itself. -/
theorem exists_updateList?_iff :
    (∃ u, updateList? create f key positions t = some u) ↔
      ∃ holder items items', holder? key positions t = some holder ∧
        listUnder? create holder.1 holder.2 = some items ∧ f items = some items' := by
  induction positions generalizing key t with
  | nil =>
    constructor
    · rintro ⟨u, hu⟩
      obtain ⟨items, items', hitems, hitems', -⟩ := updateList?_nil_eq_some_iff.mp hu
      exact ⟨(key, t), items, items', rfl, hitems, hitems'⟩
    · rintro ⟨_, items, items', ⟨⟩, hitems, hitems'⟩
      exact ⟨_, updateList?_nil_eq_some_iff.mpr ⟨items, items', hitems, hitems', rfl⟩⟩
  | cons i positions ih =>
    constructor
    · rintro ⟨u, hu⟩
      obtain ⟨xs, command, nested, changed, hxs, hcommand, hnested, hchanged, -⟩ :=
        updateList?_cons_eq_some_iff.mp hu
      obtain ⟨holder, items, items', hholder, hrest⟩ := ih.mp ⟨changed, hchanged⟩
      exact ⟨holder, items, items', holder?_cons_eq_some_iff.mpr ⟨xs, command, nested,
        listUnder?_of_itemAt? hxs hcommand, hcommand, hnested, hholder⟩, hrest⟩
    · rintro ⟨holder, items, items', hholder, hrest⟩
      obtain ⟨xs, command, nested, hxs, hcommand, hnested, hholder⟩ :=
        holder?_cons_eq_some_iff.mp hholder
      obtain ⟨changed, hchanged⟩ := ih.mpr ⟨holder, items, items', hholder, hrest⟩
      exact ⟨_, updateList?_cons_eq_some_iff.mpr ⟨xs, command, nested, changed,
        listUnder?_of_there hxs create, hcommand, hnested, hchanged, rfl⟩⟩

/-- A list that is not to be created is changed where it is found. -/
theorem exists_updateList?_there_iff :
    (∃ u, updateList? false f key positions t = some u) ↔
      ∃ items items', listAt? key positions t = some items ∧ f items = some items' := by
  simp only [exists_updateList?_iff, listAt?_eq_bind, Option.bind_eq_some_iff]
  constructor
  · rintro ⟨holder, items, items', hholder, hitems, hitems'⟩
    exact ⟨items, items', ⟨holder, hholder, hitems⟩, hitems'⟩
  · rintro ⟨items, items', ⟨holder, hholder, hitems⟩, hitems'⟩
    exact ⟨holder, items, items', hholder, hitems, hitems'⟩

/-- A change of a list, at any depth, is a write to the key that the positions start from. -/
theorem exists_set_of_updateList? (h : updateList? create f key positions t = some u) :
    ∃ items, u = t.set key (.list items) := by
  cases positions with
  | nil =>
    obtain ⟨-, items', -, -, rfl⟩ := updateList?_nil_eq_some_iff.mp h
    exact ⟨items', rfl⟩
  | cons i positions =>
    obtain ⟨-, -, -, changed, -, -, -, -, rfl⟩ := updateList?_cons_eq_some_iff.mp h
    exact ⟨_, rfl⟩

/-- Other nested commands do not make another command. -/
theorem nestedKey?_set {d : Value} (h : key ≠ "action") :
    nestedKey? (t.set key d) = nestedKey? t := by
  rw [nestedKey?, nestedKey?, Table.get?_set, if_neg h]

/-- **A change of a list of commands is undone** where it was made, at any depth. -/
theorem updateList?_undo (hlist : listAt? key positions t = some items)
    (hf : f items = some items') (hg : g items' = some items)
    (hu : updateList? create f key positions t = some u) (create' : Bool) :
    updateList? create' g key positions u = some t := by
  induction positions generalizing key t u with
  | nil =>
    obtain ⟨xs, xs', hxs, hxs', rfl⟩ := updateList?_nil_eq_some_iff.mp hu
    obtain rfl := Option.some.inj ((listUnder?_of_there hlist create).symm.trans hxs)
    obtain rfl := Option.some.inj (hf.symm.trans hxs')
    refine updateList?_nil_eq_some_iff.mpr ⟨items', items, listUnder?_set .., hg, ?_⟩
    rw [Table.set_set, Table.set_eq_self (listUnder?_eq_some_iff.mp hlist)]
  | cons i positions ih =>
    obtain ⟨xs, command, nested, hxs, hcommand, hnested, hlist⟩ :=
      listAt?_cons_eq_some_iff.mp hlist
    obtain ⟨ys, command', nested', changed, hys, hcommand', hnested', hchanged, rfl⟩ :=
      updateList?_cons_eq_some_iff.mp hu
    obtain rfl := Option.some.inj ((listUnder?_of_there hxs create).symm.trans hys)
    obtain rfl := Data.table.inj (Option.some.inj (hcommand.symm.trans hcommand'))
    obtain rfl := Option.some.inj (hnested.symm.trans hnested')
    -- The changed command leads on to the same list as before.
    have hnext : nestedKey? changed = some nested := by
      obtain ⟨below, rfl⟩ := exists_set_of_updateList? hchanged
      rw [nestedKey?_set, hnested]
      rw [(eq_behaviors_of_nestedKey? hnested).1]
      decide
    have hplace : itemAt? (replaceItem xs i (.table changed)) i = some (.table changed) := by
      rw [itemAt?_replaceItem hcommand, if_pos rfl]
    refine updateList?_cons_eq_some_iff.mpr ⟨_, changed, nested, command, listUnder?_set ..,
      hplace, hnext, ih hlist hchanged, ?_⟩
    rw [replaceItem_replaceItem, replaceItem_self hcommand, Table.set_set,
      Table.set_eq_self (listUnder?_eq_some_iff.mp hxs)]

end Bestiary.Tree
