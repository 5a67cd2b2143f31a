import Bestiary.Proofs.Tree.Sound
import Bestiary.Tree.Edit

/-!
# Edits keep trees sound

Every edit changes the table of one node. If the change makes a sound table of a sound one, the
whole tree stays sound (`sound_update?`); what is left is to look at the changes themselves.

* `WrittenAt` says where the child at a position is written; only such a child can be changed
  (`exists_of_updateChild?`).
* `sound_withChild`, `sound_withSlotFilled`, `sound_withoutChild`, `sound_withChildMoved` and
  `sound_retyped` are about the children of a node.
-/

namespace Bestiary.Tree

variable {kind : NodeKind} {entries : Table Value}

theorem table?_eq_some_iff {v : Value} : v.table? = some entries ↔ v = .table entries := by
  cases v <;> simp [Data.table?]

/-! ## Items of lists -/

section Items

variable {α : Type} {items : List α} {i : Int} {a : α} {P : α → Prop}

theorem mem_of_itemAt? (h : itemAt? items i = some a) : a ∈ items := by
  unfold itemAt? at h
  split at h
  · exact absurd h (by simp)
  · exact List.mem_of_getElem? h

theorem forall_mem_replaceItem (h : ∀ x ∈ items, P x) (ha : P a) :
    ∀ x ∈ replaceItem items i a, P x := by
  intro x hx
  rcases List.mem_or_eq_of_mem_set hx with hx | rfl
  · exact h x hx
  · exact ha

theorem forall_mem_removeItem? {rest : List α} (h : ∀ x ∈ items, P x)
    (hr : removeItem? items i = some rest) : ∀ x ∈ rest, P x := by
  obtain ⟨-, -, rfl⟩ := Option.map_eq_some_iff.mp hr
  intro x hx
  exact h x (List.mem_of_mem_eraseIdx hx)

theorem forall_mem_swapItem? {offset : Int} {swapped : List α} (h : ∀ x ∈ items, P x)
    (hs : swapItem? items i offset = some swapped) : ∀ x ∈ swapped, P x := by
  obtain ⟨a, ha, hs⟩ := Option.bind_eq_some_iff.mp hs
  obtain ⟨b, hb, hs⟩ := Option.bind_eq_some_iff.mp hs
  obtain rfl := Option.some.inj hs
  exact forall_mem_replaceItem (forall_mem_replaceItem h (h b (mem_of_itemAt? hb)))
    (h a (mem_of_itemAt? ha))

end Items

/-! ## Fields for children -/

/-- Only control nodes have a list of children. -/
theorem eq_children_of_listField {field : String} (h : kind.layout.listField = some field) :
    field = "children" ∧ ∃ c, kind = .control c := by
  cases kind with
  | control c => exact ⟨(Option.some.inj h).symm, c, rfl⟩
  | _ => exact absurd h (by simp [NodeKind.layout, NodeKind.plainLayout])

theorem kindOf?_set {field : String} {d : Value} (h : field ≠ "type") :
    kindOf? (.table (entries.set field d)) = kindOf? (.table entries) := by
  rw [kindOf?_table, kindOf?_table, Table.get?_set, if_neg h]

/-- A node with other children in its list is of the same kind. -/
theorem kindOf?_set_listField {field : String} (hkind : kindOf? (.table entries) = some kind)
    (hlist : kind.layout.listField = some field) (d : Value) :
    kindOf? (.table (entries.set field d)) = some kind := by
  rw [kindOf?_set, hkind]
  rw [(eq_children_of_listField hlist).1]
  decide

theorem mem_keys_layout {s : Slot} (hs : s ∈ kind.layout.slots) : s.field ∈ kind.keys :=
  List.mem_cons_of_mem _ (List.mem_append_right _ (List.mem_map_of_mem hs))

theorem field_ne_type {s : Slot} (hs : s ∈ kind.layout.slots) : s.field ≠ "type" := by
  cases hs using NodeKind.slot_cases <;> decide

/-- A node with another child in a slot is of the same kind. -/
theorem kindOf?_set_slot {s : Slot} (hkind : kindOf? (.table entries) = some kind)
    (hs : s ∈ kind.layout.slots) (d : Value) :
    kindOf? (.table (entries.set s.field d)) = some kind :=
  (kindOf?_set (field_ne_type hs)).trans hkind

/-- A node with slots has no list of children, and no fields of its own. -/
theorem slots_spec {s : Slot} (hs : s ∈ kind.layout.slots) :
    kind.layout.listField = none ∧ ∀ entries, OwnFits entries kind := by
  cases hs using NodeKind.slot_cases <;> exact ⟨rfl, fun _ => trivial⟩

/-- Fields that a kind has can be set. -/
theorem closed_set {field : String} {d : Value} (h : ∀ k ∈ entries.keys, k ∈ kind.keys)
    (hfield : field ∈ kind.keys) : ∀ k ∈ (entries.set field d).keys, k ∈ kind.keys := by
  intro k hk
  rcases Table.mem_keys_set.mp hk with rfl | hk
  · exact hfield
  · exact h k hk

/-- A control node is sound if the items of its list are. -/
theorem sound_of_items {c : ControlKind} {items : List Value}
    (hkind : kindOf? (.table entries) = some (.control c))
    (hitems : entries.get? "children" = some (.list items))
    (hclosed : ∀ k ∈ entries.keys, k ∈ (NodeKind.control c).keys) (h : ∀ v ∈ items, Sound v) :
    Sound (.table entries) := by
  refine .known hkind (fits_of_no_slots hclosed rfl ?_ trivial) ?_
  · rintro _ ⟨⟩
    exact ⟨items, hitems⟩
  · rw [childValues_control c hitems]
    exact h

/-- A sound list of children in place of what a control node has. -/
theorem sound_set_list {field : String} {items : List Value}
    (hkind : kindOf? (.table entries) = some kind) (hfield : kind.layout.listField = some field)
    (hfits : Fits kind entries) (hitems : ∀ v ∈ items, Sound v) :
    Sound (.table (entries.set field (.list items))) := by
  obtain ⟨rfl, c, rfl⟩ := eq_children_of_listField hfield
  refine sound_of_items ((kindOf?_set (by decide)).trans hkind) ?_
    (closed_set hfits.closed (List.mem_cons_of_mem _ (List.mem_singleton.mpr rfl))) hitems
  rw [Table.get?_set, if_pos rfl]

/-- A sound child in a slot, in place of what is there. -/
theorem sound_set_slot {s : Slot} {d : Value} (hkind : kindOf? (.table entries) = some kind)
    (hs : s ∈ kind.layout.slots) (h : Sound (.table entries)) (hd : Sound d) :
    Sound (.table (entries.set s.field d)) := by
  obtain ⟨hlist, hown⟩ := slots_spec hs
  obtain ⟨hfits, hbelow⟩ := (sound_known_iff hkind).mp h
  refine .known (kindOf?_set_slot hkind hs d) ⟨?_, ?_, ?_, hown _⟩ ?_
  · exact closed_set hfits.closed (mem_keys_layout hs)
  · intro field hfield
    exact absurd (hlist.symm.trans hfield) (by simp)
  · intro s' hs' hr
    rw [Table.get?_set]
    split
    · exact ⟨d, rfl⟩
    · exact hfits.filled s' hs' hr
  · intro v hv
    obtain ⟨s', hs', hv⟩ := (mem_childValues_iff_of_slots hlist).mp hv
    rw [Table.get?_set] at hv
    split at hv
    · rw [← Option.some.inj hv]
      exact hd
    · exact hbelow v ((mem_childValues_iff_of_slots hlist).mpr ⟨s', hs', hv⟩)

/-! ## One step down -/

section Written

variable {v w c c' : Value} {i : Int} {f : Value → Option Value}

/-- The child at a position is written in the list of a node, or in a slot. -/
inductive WrittenAt (i : Int) (c : Value) : Value → Prop
  | item {entries : Table Value} {kind : NodeKind} {field : String} {items : List Value}
      (hkind : kindOf? (.table entries) = some kind) (hlist : kind.layout.listField = some field)
      (hitems : entries.get? field = some (.list items)) (hi : itemAt? items i = some c) :
      WrittenAt i c (.table entries)
  | slot {entries : Table Value} {kind : NodeKind} {s : Slot}
      (hkind : kindOf? (.table entries) = some kind) (hlist : kind.layout.listField = none)
      (hs : itemAt? kind.layout.slots i = some s) (hc : entries.get? s.field = some c) :
      WrittenAt i c (.table entries)

theorem childAt?_of_listField {field : String} (hkind : kindOf? (.table entries) = some kind)
    (hlist : kind.layout.listField = some field) (i : Int) :
    childAt? (.table entries) i = ((entries.get? field).bind Data.list?).bind (itemAt? · i) := by
  simp [childAt?, hkind, Data.table?, hlist, childList?]

theorem childAt?_of_slots (hkind : kindOf? (.table entries) = some kind)
    (hlist : kind.layout.listField = none) (i : Int) :
    childAt? (.table entries) i =
      (itemAt? kind.layout.slots i).bind fun s => entries.get? s.field := by
  simp [childAt?, hkind, Data.table?, hlist]

theorem childAt?_eq_some_iff : childAt? v i = some c ↔ WrittenAt i c v := by
  constructor
  · intro h
    obtain ⟨kind, hkind, hrest⟩ := Option.bind_eq_some_iff.mp h
    obtain ⟨entries, htable, -⟩ := Option.bind_eq_some_iff.mp hrest
    obtain rfl := table?_eq_some_iff.mp htable
    cases hlist : kind.layout.listField with
    | some field =>
      rw [childAt?_of_listField hkind hlist] at h
      obtain ⟨items, hd, hi⟩ := Option.bind_eq_some_iff.mp h
      obtain ⟨d, hitems, hd⟩ := Option.bind_eq_some_iff.mp hd
      cases d with
      | list xs =>
        obtain rfl := Option.some.inj hd
        exact .item hkind hlist hitems hi
      | _ => exact absurd hd (by simp [Data.list?])
    | none =>
      rw [childAt?_of_slots hkind hlist] at h
      obtain ⟨s, hs, hc⟩ := Option.bind_eq_some_iff.mp h
      exact .slot hkind hlist hs hc
  · rintro (⟨hkind, hlist, hitems, hi⟩ | ⟨hkind, hlist, hs, hc⟩)
    · rw [childAt?_of_listField hkind hlist, hitems]
      exact hi
    · rw [childAt?_of_slots hkind hlist, hs]
      exact hc

theorem updateChild?_item {field : String} {items : List Value}
    (hkind : kindOf? (.table entries) = some kind) (hlist : kind.layout.listField = some field)
    (hitems : entries.get? field = some (.list items)) (hi : itemAt? items i = some c)
    (hf : f c = some c') :
    updateChild? f (.table entries) i =
      some (.table (entries.set field (.list (replaceItem items i c')))) := by
  simp [updateChild?, hkind, Data.table?, hlist, childList?, hitems, Data.list?, hi, hf]

theorem updateChild?_slot {s : Slot} (hkind : kindOf? (.table entries) = some kind)
    (hlist : kind.layout.listField = none) (hs : itemAt? kind.layout.slots i = some s)
    (hc : entries.get? s.field = some c) (hf : f c = some c') :
    updateChild? f (.table entries) i = some (.table (entries.set s.field c')) := by
  simp [updateChild?, hkind, Data.table?, hlist, hs, hc, hf]

/-- Only a child that is there can be changed. -/
theorem exists_of_updateChild? (h : updateChild? f v i = some w) :
    ∃ c c', WrittenAt i c v ∧ f c = some c' := by
  obtain ⟨kind, hkind, hrest⟩ := Option.bind_eq_some_iff.mp h
  obtain ⟨entries, htable, hset⟩ := Option.bind_eq_some_iff.mp hrest
  have hchild : ∀ {c}, childAt? v i = some c → WrittenAt i c v := childAt?_eq_some_iff.mp
  simp only [childAt?, hkind, htable, Option.bind_eq_bind, Option.bind_some] at hchild
  cases hlist : kind.layout.listField with
  | some field =>
    simp only [hlist] at hset hchild
    obtain ⟨items, hitems, hset⟩ := Option.bind_eq_some_iff.mp hset
    obtain ⟨c, hc, hset⟩ := Option.bind_eq_some_iff.mp hset
    obtain ⟨c', hc', -⟩ := Option.bind_eq_some_iff.mp hset
    exact ⟨c, c', hchild (Option.bind_eq_some_iff.mpr ⟨items, hitems, hc⟩), hc'⟩
  | none =>
    simp only [hlist] at hset hchild
    obtain ⟨s, hs, hset⟩ := Option.bind_eq_some_iff.mp hset
    obtain ⟨c, hc, hset⟩ := Option.bind_eq_some_iff.mp hset
    obtain ⟨c', hc', -⟩ := Option.bind_eq_some_iff.mp hset
    exact ⟨c, c', hchild (Option.bind_eq_some_iff.mpr ⟨s, hs, hc⟩), hc'⟩

end Written

/-! ## Changing one node -/

theorem childList?_eq_some {field : String} {items : List Value}
    (hlist : kind.layout.listField = some field)
    (hitems : entries.get? field = some (.list items)) :
    childList? kind entries = some items := by
  rw [childList?, hlist, Option.bind_some, hitems]
  rfl

theorem sound_of_childList? {items : List Value} (hkind : kindOf? (.table entries) = some kind)
    (h : Sound (.table entries)) (hc : childList? kind entries = some items) :
    ∀ v ∈ items, Sound v := by
  intro v hv
  refine ((sound_known_iff hkind).mp h).2 v (List.mem_append_left _ ?_)
  rw [hc]
  exact hv

/-- What is written in the place for a child of a sound node is sound. -/
theorem sound_of_writtenAt {v c : Value} {i : Int} (h : Sound v) (hc : WrittenAt i c v) :
    Sound c := by
  cases hc with
  | item hkind hlist hitems hi =>
    exact sound_of_childList? hkind h (childList?_eq_some hlist hitems) c (mem_of_itemAt? hi)
  | slot hkind hlist hs hget =>
    refine ((sound_known_iff hkind).mp h).2 c (List.mem_append_right _ ?_)
    exact List.mem_filterMap.mpr ⟨_, mem_of_itemAt? hs, hget⟩

/-- A child changed for a sound one. -/
theorem sound_updateChild? {f : Value → Option Value} (hf : ∀ v w, Sound v → f v = some w → Sound w)
    {v w : Value} {i : Int} (h : Sound v) (hu : updateChild? f v i = some w) : Sound w := by
  obtain ⟨c, c', hwritten, hc'⟩ := exists_of_updateChild? hu
  have hsound := hf c c' (sound_of_writtenAt h hwritten) hc'
  cases hwritten with
  | item hkind hlist hitems hi =>
    obtain rfl := Option.some.inj ((updateChild?_item hkind hlist hitems hi hc').symm.trans hu)
    have hitems := sound_of_childList? hkind h (childList?_eq_some hlist hitems)
    exact sound_set_list hkind hlist ((sound_known_iff hkind).mp h).1
      (forall_mem_replaceItem hitems hsound)
  | slot hkind hlist hs hget =>
    obtain rfl := Option.some.inj ((updateChild?_slot hkind hlist hs hget hc').symm.trans hu)
    exact sound_set_slot hkind (mem_of_itemAt? hs) h hsound

/-- A change of tables that makes sound ones of sound ones. -/
def KeepsSound (f : Table Value → Option (Table Value)) : Prop :=
  ∀ t u, Sound (.table t) → f t = some u → Sound (.table u)

/-- **A tree with one node changed is sound** if it was and the change makes sound nodes of sound
ones. -/
theorem sound_update? {f : Table Value → Option (Table Value)} (hf : KeepsSound f) (path : Path)
    {v w : Value} (h : Sound v) (hu : update? f path v = some w) : Sound w := by
  induction path generalizing v w with
  | nil =>
    obtain ⟨u, hbind, rfl⟩ := Option.map_eq_some_iff.mp hu
    obtain ⟨t, ht, hfu⟩ := Option.bind_eq_some_iff.mp hbind
    obtain rfl := table?_eq_some_iff.mp ht
    exact hf t u h hfu
  | cons i path ih => exact sound_updateChild? (fun v w hv hw => ih hv hw) h hu

theorem sound_editAt {f : Table Value → Option (Table Value)} (hf : KeepsSound f) {root : Value}
    (h : Sound root) (path : Path) : Sound (editAt root path f) := by
  unfold editAt
  cases hu : update? f path root with
  | none => exact h
  | some w => exact sound_update? hf path h hu

theorem sound_editParent {f : Int → Table Value → Option (Table Value)} (hf : ∀ i, KeepsSound (f i))
    {root : Value} (h : Sound root) (path : Path) : Sound (editParent root path f) := by
  unfold editParent
  cases path.getLast? with
  | none => exact h
  | some i => exact sound_editAt (hf i) h _

/-! ## New nodes -/

/-- A node without places for children is sound if it has its own fields and no others. -/
theorem sound_of_leaf (hkind : kindOf? (.table entries) = some kind)
    (hlist : kind.layout.listField = none) (hslots : kind.layout.slots = [])
    (hclosed : ∀ k ∈ entries.keys, k ∈ kind.keys) (hown : OwnFits entries kind) :
    Sound (.table entries) := by
  refine .known hkind (fits_of_no_slots hclosed hslots ?_ hown) fun v hv => ?_
  · exact fun field hfield => absurd (hlist.symm.trans hfield) (by simp)
  · obtain ⟨s, hs, -⟩ := (mem_childValues_iff_of_slots hlist).mp hv
    rw [hslots] at hs
    exact absurd hs List.not_mem_nil

theorem sound_secondOfWaiting : Sound (.table secondOfWaiting) :=
  sound_of_leaf (show _ = some NodeKind.wait from rfl) rfl rfl (by decide) ⟨_, rfl⟩

theorem sound_emptyAction (name : String) : Sound (.table (emptyAction name)) := by
  refine sound_of_leaf (show _ = some NodeKind.action from rfl) rfl rfl ?_
    ⟨⟨name, rfl⟩, [], rfl, fun _ h => absurd h List.not_mem_nil⟩
  show ∀ k ∈ ["type", "name", "behaviors"], k ∈ NodeKind.action.keys
  decide

/-- What a slot is filled with is sound. -/
theorem sound_filler {s : Slot} (hs : s ∈ kind.layout.slots) : Sound (.table s.filler) := by
  cases hs using NodeKind.slot_cases with
  | loopCondition => exact sound_secondOfWaiting
  | loopChild => exact sound_emptyAction "Child"
  | branchCondition => exact sound_secondOfWaiting
  | thenChild => exact sound_emptyAction "Then"
  | elseChild => exact sound_emptyAction "Else"

/-- A new node of any kind is sound. -/
theorem sound_freshNode (kind : NodeKind) : Sound (.table (freshNode kind)) := by
  cases kind with
  | control c =>
    have hkind : kindOf? (.table (freshNode (.control c))) = some (.control c) := by
      cases c <;> rfl
    have hclosed : ∀ k ∈ (freshNode (.control c)).keys, k ∈ (NodeKind.control c).keys := by
      cases c <;> decide
    exact sound_of_items hkind rfl hclosed fun _ h => absurd h List.not_mem_nil
  | whileLoop =>
    refine .known (show _ = some NodeKind.whileLoop from rfl) ⟨by decide, ?_, ?_, trivial⟩ ?_
    · exact fun _ h => absurd h (by simp [NodeKind.layout])
    · intro s hs hr
      simp only [NodeKind.layout, List.mem_cons, List.not_mem_nil, or_false] at hs
      rcases hs with rfl | rfl
      · exact absurd hr (by simp)
      · exact ⟨_, rfl⟩
    · intro v hv
      obtain rfl := List.mem_singleton.mp (show v ∈ [.table (emptyAction "Child")] from hv)
      exact sound_emptyAction _
  | ifThen =>
    refine .known (show _ = some NodeKind.ifThen from rfl) ⟨by decide, ?_, ?_, trivial⟩ ?_
    · exact fun _ h => absurd h (by simp [NodeKind.layout])
    · intro s hs hr
      simp only [NodeKind.layout, List.mem_cons, List.not_mem_nil, or_false] at hs
      rcases hs with rfl | rfl | rfl
      · exact ⟨_, rfl⟩
      · exact ⟨_, rfl⟩
      · exact absurd hr (by simp)
    · intro v hv
      rcases List.mem_cons.mp
        (show v ∈ [.table secondOfWaiting, .table (emptyAction "Then")] from hv) with rfl | hv
      · exact sound_secondOfWaiting
      · rw [List.mem_singleton.mp hv]
        exact sound_emptyAction _
  | wait => exact sound_secondOfWaiting
  | action => exact sound_emptyAction _
  | trigger =>
    exact sound_of_leaf (show _ = some NodeKind.trigger from rfl) rfl rfl (by decide) ⟨_, rfl⟩

/-! ## Edits of nodes -/

theorem sound_withChild : KeepsSound (withChild none) := by
  intro t u h hu
  obtain ⟨kind, hkind, hset⟩ := Option.bind_eq_some_iff.mp hu
  obtain ⟨hfits, hbelow⟩ := (sound_known_iff hkind).mp h
  cases hfield : kind.layout.listField with
  | some field =>
    simp only [hfield] at hset
    obtain ⟨items, hitems⟩ := hfits.listed field hfield
    simp only [hitems] at hset
    obtain rfl := Option.some.inj hset
    refine sound_set_list hkind hfield hfits (List.forall_mem_append.mpr ⟨?_, ?_⟩)
    · exact sound_of_childList? hkind h (childList?_eq_some hfield hitems)
    · exact List.forall_mem_singleton.mpr (sound_emptyAction _)
  | none =>
    simp only [hfield] at hset
    obtain ⟨s, hs, hset⟩ := Option.bind_eq_some_iff.mp hset
    obtain rfl := Option.some.inj hset
    have hs := List.mem_of_find?_eq_some hs
    exact sound_set_slot hkind hs h (sound_filler hs)

theorem sound_withSlotFilled (number : Int) : KeepsSound (withSlotFilled number) := by
  intro t u h hu
  obtain ⟨kind, hkind, hfill⟩ := Option.bind_eq_some_iff.mp hu
  obtain ⟨s, hs, hfill⟩ := Option.bind_eq_some_iff.mp hfill
  split at hfill
  · exact absurd hfill (by simp)
  · obtain rfl := Option.some.inj hfill
    have hs := mem_of_itemAt? hs
    exact sound_set_slot hkind hs h (sound_filler hs)

/-- A node without the child in a slot that need not be filled. -/
theorem sound_erase_slot {s : Slot} (hkind : kindOf? (.table entries) = some kind)
    (hs : s ∈ kind.layout.slots) (hr : ¬s.required = true) (h : Sound (.table entries)) :
    Sound (.table (entries.erase s.field)) := by
  obtain ⟨hlist, hown⟩ := slots_spec hs
  obtain ⟨hfits, hbelow⟩ := (sound_known_iff hkind).mp h
  have hkind' : kindOf? (.table (entries.erase s.field)) = some kind := by
    rw [kindOf?_table, Table.get?_erase, if_neg (field_ne_type hs)]
    exact hkind
  refine .known hkind' ⟨?_, ?_, ?_, hown _⟩ ?_
  · intro k hk
    exact hfits.closed k (Table.mem_keys_erase.mp hk).2
  · intro field hfield
    exact absurd (hlist.symm.trans hfield) (by simp)
  · intro s' hs' hr'
    have hne : s.field ≠ s'.field := by
      intro hfield
      obtain rfl := List.inj_on_of_nodup_map kind.nodup_slot_fields hs hs' hfield
      exact hr hr'
    rw [Table.get?_erase, if_neg hne]
    exact hfits.filled s' hs' hr'
  · intro v hv
    obtain ⟨s', hs', hv⟩ := (mem_childValues_iff_of_slots hlist).mp hv
    rw [Table.get?_erase] at hv
    split at hv
    · exact absurd hv (by simp)
    · exact hbelow v ((mem_childValues_iff_of_slots hlist).mpr ⟨s', hs', hv⟩)

theorem sound_withoutChild (i : Int) : KeepsSound (withoutChild i) := by
  intro t u h hu
  obtain ⟨kind, hkind, hdrop⟩ := Option.bind_eq_some_iff.mp hu
  cases hfield : kind.layout.listField with
  | some field =>
    simp only [hfield] at hdrop
    obtain ⟨children, hchildren, hdrop⟩ := Option.bind_eq_some_iff.mp hdrop
    obtain ⟨rest, hrest, hdrop⟩ := Option.bind_eq_some_iff.mp hdrop
    obtain rfl := Option.some.inj hdrop
    exact sound_set_list hkind hfield ((sound_known_iff hkind).mp h).1
      (forall_mem_removeItem? (sound_of_childList? hkind h hchildren) hrest)
  | none =>
    simp only [hfield] at hdrop
    obtain ⟨s, hs, hdrop⟩ := Option.bind_eq_some_iff.mp hdrop
    split at hdrop
    · exact absurd hdrop (by simp)
    · rename_i hspare
      obtain rfl := Option.some.inj hdrop
      refine sound_erase_slot hkind (mem_of_itemAt? hs) ?_ h
      intro hr
      exact hspare (by rw [hr]; rfl)

theorem sound_withChildMoved (offset i : Int) : KeepsSound (withChildMoved offset i) := by
  intro t u h hu
  obtain ⟨kind, hkind, hmove⟩ := Option.bind_eq_some_iff.mp hu
  obtain ⟨field, hfield, hmove⟩ := Option.bind_eq_some_iff.mp hmove
  obtain ⟨children, hchildren, hmove⟩ := Option.bind_eq_some_iff.mp hmove
  obtain ⟨swapped, hswapped, hmove⟩ := Option.bind_eq_some_iff.mp hmove
  obtain rfl := Option.some.inj hmove
  exact sound_set_list hkind hfield ((sound_known_iff hkind).mp h).1
    (forall_mem_swapItem? (sound_of_childList? hkind h hchildren) hswapped)

/-- Control nodes differ in nothing but their type. -/
theorem sound_set_controlType {c : ControlKind}
    (hkind : kindOf? (.table entries) = some (.control c)) (h : Sound (.table entries))
    (c' : ControlKind) : Sound (.table (entries.set "type" (.text c'.name))) := by
  obtain ⟨hfits, hbelow⟩ := (sound_known_iff hkind).mp h
  have hkind' : kindOf? (.table (entries.set "type" (.text c'.name))) = some (.control c') := by
    rw [kindOf?_table, Table.get?_set, if_pos rfl]
    exact NodeKind.ofName?_name (.control c')
  obtain ⟨items, hitems⟩ := hfits.listed "children" rfl
  have hitems' : (entries.set "type" (.text c'.name)).get? "children" = some (.list items) := by
    rw [Table.get?_set, if_neg (by decide), hitems]
  have hclosed : ∀ k ∈ entries.keys, k ∈ (NodeKind.control c').keys := hfits.closed
  rw [childValues_control c hitems] at hbelow
  exact sound_of_items hkind' hitems' (closed_set hclosed List.mem_cons_self) hbelow

theorem sound_retyped (kind : NodeKind) : KeepsSound (retyped kind) := by
  intro t u h hu
  unfold retyped at hu
  split at hu
  · obtain rfl := Option.some.inj hu
    exact sound_freshNode kind
  · rename_i name hname
    split at hu
    · exact absurd hu (by simp)
    · split at hu
      · rename_i c c' hold _
        have hkind : kindOf? (.table t) = some (.control c) := by
          rw [kindOf?_table, hname, Option.bind_some, hold]
        obtain ⟨items, hitems⟩ := ((sound_known_iff hkind).mp h).1.listed "children" rfl
        have hchildren : ((Table.set t "type" (.text (NodeKind.control c').name)).get?
            "children").bind Data.list? = some items := by
          rw [Table.get?_set, if_neg (by decide), hitems]
          rfl
        simp only [hchildren] at hu
        obtain rfl := Option.some.inj hu
        exact sound_set_controlType hkind h c'
      · obtain rfl := Option.some.inj hu
        exact sound_freshNode _

end Bestiary.Tree
