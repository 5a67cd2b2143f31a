import Bestiary.Proofs.Data.Keyed
import Bestiary.Proofs.Tree.CommandEdit
import Bestiary.Tree.Operation

/-!
# Edits keep trees well-keyed

Every edit writes to tables and erases from them, which never makes a key occur twice. The values
that a caller puts into a tree have to be well-keyed themselves.

* `TreeEdit.wellKeyed_apply`: every edit of well-keyed values keeps every tree well-keyed.
-/

namespace Bestiary

open Data (WellKeyed)

namespace Tree

variable {entries : Table Value} {kind : NodeKind} {i : Int}

/-! ## Parts of tables -/

theorem wellKeyed_set_list (h : WellKeyed (.table entries)) (key : String) {items : List Value}
    (hitems : ∀ v ∈ items, WellKeyed v) : WellKeyed (.table (entries.set key (.list items))) :=
  h.set (Data.wellKeyed_list_iff.mpr hitems) key

theorem wellKeyed_of_list? {key : String} {v : Value} {items : List Value}
    (h : WellKeyed (.table entries)) (hv : entries.get? key = some v)
    (hitems : v.list? = some items) : ∀ c ∈ items, WellKeyed c := by
  cases v with
  | list l =>
    obtain rfl := Option.some.inj hitems
    exact Data.wellKeyed_list_iff.mp (h.get? hv)
  | _ => exact absurd hitems (by simp [Data.list?])

theorem wellKeyed_of_table? {v : Value} (h : WellKeyed v) (ht : v.table? = some entries) :
    WellKeyed (.table entries) := by
  rw [← table?_eq_some_iff.mp ht]
  exact h

/-- What is given, or else a value in its place. -/
theorem wellKeyed_getD {o : Option Value} {v : Value} (ho : ∀ c, o = some c → WellKeyed c)
    (hv : WellKeyed v) : WellKeyed (o.getD v) := by
  cases o with
  | none => exact hv
  | some c => exact ho c rfl

theorem wellKeyed_of_childList? {items : List Value} (h : WellKeyed (.table entries))
    (hc : childList? kind entries = some items) : ∀ v ∈ items, WellKeyed v := by
  obtain ⟨v, hv, hitems⟩ := Option.bind_eq_some_iff.mp hc
  obtain ⟨field, -, hv⟩ := Option.bind_eq_some_iff.mp hv
  exact wellKeyed_of_list? h hv hitems

/-! ## Changing one node -/

/-- A change of tables that makes well-keyed ones of well-keyed ones. -/
def KeepsKeyed (f : Table Value → Option (Table Value)) : Prop :=
  ∀ t u, WellKeyed (.table t) → f t = some u → WellKeyed (.table u)

theorem wellKeyed_updateChild? {f : Value → Option Value}
    (hf : ∀ v w, WellKeyed v → f v = some w → WellKeyed w) {v w : Value} (h : WellKeyed v)
    (hu : updateChild? f v i = some w) : WellKeyed w := by
  obtain ⟨c, c', hwritten, hc'⟩ := exists_of_updateChild? hu
  cases hwritten with
  | @item _ _ field _ hkind hlist hitems hi =>
    obtain rfl := Option.some.inj ((updateChild?_item hkind hlist hitems hi hc').symm.trans hu)
    have hkeyed := Data.wellKeyed_list_iff.mp (h.get? hitems)
    exact wellKeyed_set_list h field
      (forall_mem_replaceItem hkeyed (hf c c' (hkeyed c (mem_of_itemAt? hi)) hc'))
  | @slot _ _ s hkind hlist hs hget =>
    obtain rfl := Option.some.inj ((updateChild?_slot hkind hlist hs hget hc').symm.trans hu)
    exact h.set (hf c c' (h.get? hget) hc') s.field

/-- **A tree with one node changed is well-keyed** if it was and the change keeps tables so. -/
theorem wellKeyed_update? {f : Table Value → Option (Table Value)} (hf : KeepsKeyed f) (path : Path)
    {v w : Value} (h : WellKeyed v) (hu : update? f path v = some w) : WellKeyed w := by
  induction path generalizing v w with
  | nil =>
    obtain ⟨u, hbind, rfl⟩ := Option.map_eq_some_iff.mp hu
    obtain ⟨t, ht, hfu⟩ := Option.bind_eq_some_iff.mp hbind
    exact hf t u (wellKeyed_of_table? h ht) hfu
  | cons i path ih => exact wellKeyed_updateChild? (fun v w hv hw => ih hv hw) h hu

theorem wellKeyed_editAt {f : Table Value → Option (Table Value)} (hf : KeepsKeyed f) {root : Value}
    (h : WellKeyed root) (path : Path) : WellKeyed (editAt root path f) := by
  unfold editAt
  cases hu : update? f path root with
  | none => exact h
  | some w => exact wellKeyed_update? hf path h hu

theorem wellKeyed_editParent {f : Int → Table Value → Option (Table Value)}
    (hf : ∀ i, KeepsKeyed (f i)) {root : Value} (h : WellKeyed root) (path : Path) :
    WellKeyed (editParent root path f) := by
  unfold editParent
  split
  · exact h
  · exact wellKeyed_editAt (hf _) h _

theorem keepsKeyed_set {d : Value} (hd : WellKeyed d) (key : String) :
    KeepsKeyed fun t => some (t.set key d) := by
  intro t u h hu
  obtain rfl := Option.some.inj hu
  exact h.set hd key

theorem keepsKeyed_dropKey? (key : String) : KeepsKeyed (dropKey? key) := by
  intro t u h hu
  unfold dropKey? at hu
  split at hu
  · obtain rfl := Option.some.inj hu
    exact h.erase key
  · exact absurd hu (by simp)

/-! ## Edits of nodes -/

theorem wellKeyed_secondOfWaiting : WellKeyed (.table secondOfWaiting) := by
  rw [Data.wellKeyed_table_iff]
  exact ⟨by decide, by simp [secondOfWaiting, Data.natural, WellKeyed]⟩

theorem wellKeyed_emptyAction (name : String) : WellKeyed (.table (emptyAction name)) := by
  rw [Data.wellKeyed_table_iff]
  have hkeys : Table.keys (emptyAction name) = ["type", "name", "behaviors"] := rfl
  exact ⟨by rw [hkeys]; decide, by simp [emptyAction, WellKeyed, Data.ItemsWellKeyed]⟩

/-- What a slot is filled with is well-keyed. -/
theorem wellKeyed_filler {s : Slot} (hs : s ∈ kind.layout.slots) : WellKeyed (.table s.filler) := by
  cases hs using NodeKind.slot_cases with
  | loopCondition => exact wellKeyed_secondOfWaiting
  | loopChild => exact wellKeyed_emptyAction "Child"
  | branchCondition => exact wellKeyed_secondOfWaiting
  | thenChild => exact wellKeyed_emptyAction "Then"
  | elseChild => exact wellKeyed_emptyAction "Else"

theorem wellKeyed_freshNode (kind : NodeKind) : WellKeyed (.table (freshNode kind)) := by
  have hslots : ∀ e ∈ (kind.layout.slots.filter Slot.required).map
      fun s => (s.field, (.table s.filler : Value)), WellKeyed e.2 := by
    intro e he
    obtain ⟨s, hs, rfl⟩ := List.mem_map.mp he
    exact wellKeyed_filler (List.mem_filter.mp hs).1
  have hdefaults : ∀ e ∈ kind.layout.defaults, WellKeyed e.2 := by
    cases kind <;>
      simp [NodeKind.layout, NodeKind.plainLayout, WellKeyed, Data.ItemsWellKeyed, Data.natural]
  have hkeys : (Table.keys (freshNode kind)).Nodup := by
    cases kind <;> simp [freshNode, Table.keys, NodeKind.layout, NodeKind.plainLayout]
  refine Data.wellKeyed_table_iff.mpr ⟨hkeys, ?_⟩
  intro e he
  rcases List.mem_append.mp he with he | he
  · rcases List.mem_cons.mp he with rfl | he
    · exact trivial
    · exact hdefaults e he
  · exact hslots e he

theorem keepsKeyed_withChild {child : Option Value} (hchild : ∀ c, child = some c → WellKeyed c) :
    KeepsKeyed (withChild child) := by
  intro t u h hu
  obtain ⟨kind, -, hu⟩ := Option.bind_eq_some_iff.mp hu
  cases hfield : kind.layout.listField with
  | some field =>
    simp only [hfield] at hu
    have hnew := wellKeyed_getD hchild (wellKeyed_emptyAction "New Action")
    have hitems (children : List Value) (hchildren : ∀ c ∈ children, WellKeyed c) :
        ∀ c ∈ children ++ [child.getD newAction], WellKeyed c :=
      List.forall_mem_append.mpr ⟨hchildren, List.forall_mem_singleton.mpr hnew⟩
    split at hu
    · rename_i v hv
      obtain ⟨children, hchildren, hu⟩ := Option.bind_eq_some_iff.mp hu
      obtain rfl := Option.some.inj hu
      exact wellKeyed_set_list h field (hitems children (wellKeyed_of_list? h hv hchildren))
    · obtain rfl := Option.some.inj hu
      exact wellKeyed_set_list h field (hitems [] fun _ hc => absurd hc List.not_mem_nil)
  | none =>
    simp only [hfield] at hu
    obtain ⟨s, hs, hu⟩ := Option.bind_eq_some_iff.mp hu
    obtain rfl := Option.some.inj hu
    exact h.set (wellKeyed_getD hchild (wellKeyed_filler (List.mem_of_find?_eq_some hs))) s.field

theorem keepsKeyed_withSlotFilled (number : Int) : KeepsKeyed (withSlotFilled number) := by
  intro t u h hu
  obtain ⟨kind, -, hu⟩ := Option.bind_eq_some_iff.mp hu
  obtain ⟨s, hs, hu⟩ := Option.bind_eq_some_iff.mp hu
  split at hu
  · exact absurd hu (by simp)
  · obtain rfl := Option.some.inj hu
    exact h.set (wellKeyed_filler (mem_of_itemAt? hs)) s.field

theorem keepsKeyed_withoutChild (i : Int) : KeepsKeyed (withoutChild i) := by
  intro t u h hu
  obtain ⟨kind, -, hu⟩ := Option.bind_eq_some_iff.mp hu
  cases hfield : kind.layout.listField with
  | some field =>
    simp only [hfield] at hu
    obtain ⟨old, hold, hu⟩ := Option.bind_eq_some_iff.mp hu
    obtain ⟨children, hchildren, hu⟩ := Option.bind_eq_some_iff.mp hu
    obtain rfl := Option.some.inj hu
    exact wellKeyed_set_list h field
      (forall_mem_removeItem? (wellKeyed_of_childList? h hold) hchildren)
  | none =>
    simp only [hfield] at hu
    obtain ⟨s, -, hu⟩ := Option.bind_eq_some_iff.mp hu
    split at hu
    · exact absurd hu (by simp)
    · obtain rfl := Option.some.inj hu
      exact h.erase s.field

theorem keepsKeyed_withChildMoved (offset i : Int) : KeepsKeyed (withChildMoved offset i) := by
  intro t u h hu
  obtain ⟨kind, -, hu⟩ := Option.bind_eq_some_iff.mp hu
  obtain ⟨field, -, hu⟩ := Option.bind_eq_some_iff.mp hu
  obtain ⟨old, hold, hu⟩ := Option.bind_eq_some_iff.mp hu
  obtain ⟨children, hchildren, hu⟩ := Option.bind_eq_some_iff.mp hu
  obtain rfl := Option.some.inj hu
  exact wellKeyed_set_list h field
    (forall_mem_swapItem? (wellKeyed_of_childList? h hold) hchildren)

theorem keepsKeyed_retyped (kind : NodeKind) : KeepsKeyed (retyped kind) := by
  intro t u h hu
  unfold retyped at hu
  split at hu
  · obtain rfl := Option.some.inj hu
    exact wellKeyed_freshNode kind
  · split at hu
    · exact absurd hu (by simp)
    · split at hu
      · simp only at hu
        have htype (name : String) : WellKeyed (.table (Table.set t "type" (.text name))) :=
          h.set (d := .text name) trivial "type"
        split at hu
        · obtain rfl := Option.some.inj hu
          exact htype _
        · obtain rfl := Option.some.inj hu
          exact wellKeyed_set_list (htype _) "children" fun _ hv => absurd hv List.not_mem_nil
      · obtain rfl := Option.some.inj hu
        exact wellKeyed_freshNode _

/-! ## Edits of commands -/

/-- A change of lists that makes well-keyed items of well-keyed ones. -/
def KeepsItemsKeyed (f : List Value → Option (List Value)) : Prop :=
  ∀ items items', (∀ c ∈ items, WellKeyed c) → f items = some items' → ∀ c ∈ items', WellKeyed c

theorem wellKeyed_of_listUnder? {create : Bool} {key : String} {items : List Value}
    (h : WellKeyed (.table entries)) (hl : listUnder? create key entries = some items) :
    ∀ c ∈ items, WellKeyed c := by
  obtain hitems | ⟨-, -, rfl⟩ := listUnder?_iff.mp hl
  · exact Data.wellKeyed_list_iff.mp (h.get? hitems)
  · exact fun _ hc => absurd hc List.not_mem_nil

/-- A change of the list that positions lead to. -/
theorem keepsKeyed_updateList? {create : Bool} {f : List Value → Option (List Value)}
    (hf : KeepsItemsKeyed f) (key : String) (positions : Path) :
    KeepsKeyed (updateList? create f key positions) := by
  induction positions generalizing key with
  | nil =>
    intro t u h hu
    obtain ⟨items, items', hitems, hitems', rfl⟩ := updateList?_nil_eq_some_iff.mp hu
    exact wellKeyed_set_list h key (hf items items' (wellKeyed_of_listUnder? h hitems) hitems')
  | cons i positions ih =>
    intro t u h hu
    obtain ⟨items, command, nested, changed, hitems, hcommand, -, hchanged, rfl⟩ :=
      updateList?_cons_eq_some_iff.mp hu
    have hkeyed := wellKeyed_of_listUnder? h hitems
    have hitem := hkeyed _ (mem_of_itemAt? hcommand)
    exact wellKeyed_set_list h key
      (forall_mem_replaceItem hkeyed (ih nested command changed hitem hchanged))

theorem wellKeyed_editList {create : Bool} {f : List Value → Option (List Value)}
    (hf : KeepsItemsKeyed f) {root : Value} (h : WellKeyed root) (path positions : Path) :
    WellKeyed (editList create root path positions f) := by
  refine wellKeyed_editAt (fun t u ht hu => ?_) h path
  split at hu
  · exact keepsKeyed_updateList? hf commandsKey positions t u ht hu
  · exact absurd hu (by simp)

theorem wellKeyed_editSiblings {f : Int → List Value → Option (List Value)}
    (hf : ∀ i, KeepsItemsKeyed (f i)) {root : Value} (h : WellKeyed root) (path command : Path) :
    WellKeyed (editSiblings root path command f) := by
  unfold editSiblings
  split
  · exact h
  · exact wellKeyed_editList (hf _) h path _

theorem wellKeyed_editCommand {f : Table Value → Option (Table Value)} (hf : KeepsKeyed f)
    {root : Value} (h : WellKeyed root) (path command : Path) :
    WellKeyed (editCommand root path command f) := by
  refine wellKeyed_editSiblings (fun i items items' hitems hu => ?_) h path command
  obtain ⟨v, hv, hu⟩ := Option.bind_eq_some_iff.mp hu
  obtain ⟨entries, hentries, hu⟩ := Option.bind_eq_some_iff.mp hu
  obtain ⟨changed, hchanged, hu⟩ := Option.bind_eq_some_iff.mp hu
  obtain rfl := Option.some.inj hu
  have hitem := wellKeyed_of_table? (hitems v (mem_of_itemAt? hv)) hentries
  exact forall_mem_replaceItem hitems (hf entries changed hitem hchanged)

theorem wellKeyed_action (action : Action) :
    WellKeyed (.table (("action", .text action.name) :: action.defaults)) := by
  have hkeys : (Table.keys (("action", (.text action.name : Value)) :: action.defaults)).Nodup := by
    cases action <;> simp [Action.defaults, Table.keys]
  refine Data.wellKeyed_table_iff.mpr ⟨hkeys, List.forall_mem_cons.mpr ⟨trivial, ?_⟩⟩
  cases action <;> simp [Action.defaults, WellKeyed, Data.ItemsWellKeyed, Data.natural]

end Tree

namespace TreeEdit

open Bestiary.Tree

/-- The values that the edit brings in have no table with a key twice. -/
def IsKeyed {ε : Type} : TreeEdit (Data ε) → Prop
  | .insertChild _ child => ∀ d, child = some d → d.WellKeyed
  | .setField _ _ d => d.WellKeyed
  | .insertCommand _ _ command => ∀ d, command = some d → d.WellKeyed
  | .setParam _ _ _ d => d.WellKeyed
  | _ => True

/-- **Every edit of well-keyed values keeps trees well-keyed.** -/
theorem wellKeyed_apply {e : TreeEdit Value} (he : e.IsKeyed) {root : Value}
    (h : WellKeyed root) : WellKeyed (e.apply root) := by
  cases e with
  | insertChild path child => exact wellKeyed_editAt (keepsKeyed_withChild he) h path
  | fillSlot path slot => exact wellKeyed_editAt (keepsKeyed_withSlotFilled slot) h path
  | delete path => exact wellKeyed_editParent keepsKeyed_withoutChild h path
  | move path direction =>
    exact wellKeyed_editParent (keepsKeyed_withChildMoved direction.offset) h path
  | retype path kind => exact wellKeyed_editAt (keepsKeyed_retyped kind) h path
  | setField path field v =>
    simp only [apply, Tree.setField]
    split
    · exact h
    · exact wellKeyed_editAt (keepsKeyed_set he field) h path
  | removeField path field =>
    simp only [apply, Tree.removeField]
    split
    · exact h
    · exact wellKeyed_editAt (keepsKeyed_dropKey? field) h path
  | insertCommand path positions command =>
    refine wellKeyed_editList (fun items items' hitems hu => ?_) h path positions
    obtain rfl := Option.some.inj hu
    have hnew := wellKeyed_getD he (wellKeyed_action (.simple .moveDown))
    exact List.forall_mem_append.mpr ⟨hitems, List.forall_mem_singleton.mpr hnew⟩
  | deleteCommand path command =>
    exact wellKeyed_editSiblings (fun _ _ _ hitems => forall_mem_removeItem? hitems) h path command
  | moveCommand path command direction =>
    exact wellKeyed_editSiblings (fun _ _ _ hitems => forall_mem_swapItem? hitems) h path command
  | retypeCommand path command action =>
    refine wellKeyed_editCommand (fun t u ht hu => ?_) h path command
    split at hu
    · exact absurd hu (by simp)
    · obtain rfl := Option.some.inj hu
      exact wellKeyed_action action
  | setParam path command param v =>
    simp only [apply, Tree.setParam]
    split
    · exact h
    · exact wellKeyed_editCommand (keepsKeyed_set he param) h path command
  | removeParam path command param =>
    simp only [apply, Tree.removeParam]
    split
    · exact h
    · exact wellKeyed_editCommand (keepsKeyed_dropKey? param) h path command

end TreeEdit

end Bestiary
