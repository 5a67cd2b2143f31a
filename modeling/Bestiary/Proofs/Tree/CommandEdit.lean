import Bestiary.Proofs.Tree.Edit
import Bestiary.Tree.CommandEdit

/-!
# Structural edits

The edits that take nothing from their caller but places, kinds and actions. They keep trees sound.

* `updateList?_nil_eq_some_iff` and `updateList?_cons_eq_some_iff` are all that a change of a list
  of commands can be.
* `readable_updateList?`: a change of one list of commands, at any depth, leaves readable commands
  if it makes readable ones of readable ones.
* `StructuralEdit` lists the edits, `StructuralEdit.sound_apply` says that each keeps trees sound.
-/

namespace Bestiary

namespace Tree

open Command

variable {entries : Table Value}

/-! ## Lists of commands -/

section Inversion

variable {create : Bool} {f : List Value → Option (List Value)} {key : String} {i : Int}
  {positions : Path} {t u : Table Value}

/-- The list under a key is what stands there, or was created. -/
theorem listUnder?_iff {items : List Value} :
    listUnder? create key t = some items ↔
      t.get? key = some (.list items) ∨ create = true ∧ t.get? key = none ∧ items = [] := by
  unfold listUnder?
  cases hget : t.get? key with
  | none => cases create <;> simp [eq_comm]
  | some v => cases v <;> simp [Data.list?]

/-- A change of the list that positions start from. -/
theorem updateList?_nil_eq_some_iff :
    updateList? create f key [] t = some u ↔
      ∃ items items', listUnder? create key t = some items ∧ f items = some items' ∧
        t.set key (.list items') = u := by
  simp [updateList?, Option.bind_eq_some_iff]

/-- A change of a list further down is a change of the command that leads to it. -/
theorem updateList?_cons_eq_some_iff :
    updateList? create f key (i :: positions) t = some u ↔
      ∃ items command nested changed, listUnder? create key t = some items ∧
        itemAt? items i = some (.table command) ∧ nestedKey? command = some nested ∧
        updateList? create f nested positions command = some changed ∧
        t.set key (.list (replaceItem items i (.table changed))) = u := by
  simp [updateList?, Option.bind_eq_some_iff, table?_eq_some_iff]

end Inversion

/-- What is listed under a key, or would be if the list was created, can be read. -/
def ListsReadable (key : String) (entries : Table Value) : Prop :=
  ∀ items, entries.get? key = some (.list items) → ∀ c ∈ items, IsReadable c

theorem listsReadable_of_get? {key : String} {items : List Value}
    (hitems : entries.get? key = some (.list items)) (h : ∀ c ∈ items, IsReadable c) :
    ListsReadable key entries := by
  intro items' hitems'
  obtain rfl := Data.list.inj (Option.some.inj (hitems.symm.trans hitems'))
  exact h

/-- A change of lists that makes readable commands of readable ones. -/
def KeepsReadable (f : List Value → Option (List Value)) : Prop :=
  ∀ items items', (∀ c ∈ items, IsReadable c) → f items = some items' → ∀ c ∈ items', IsReadable c

theorem readable_listUnder? {create : Bool} {key : String} {items : List Value}
    (h : ListsReadable key entries) (hl : listUnder? create key entries = some items) :
    ∀ c ∈ items, IsReadable c := by
  obtain hitems | ⟨-, -, rfl⟩ := listUnder?_iff.mp hl
  · exact h items hitems
  · exact fun _ hc => absurd hc List.not_mem_nil

/-- Only one action has nested commands. -/
theorem eq_behaviors_of_nestedKey? {key : String} (h : nestedKey? entries = some key) :
    key = "behaviors" ∧
      ((entries.get? "action").bind Data.text?).bind Action.ofName? = some .transmit := by
  obtain ⟨a, ha, hkey⟩ := Option.bind_eq_some_iff.mp h
  cases a with
  | transmit => exact ⟨(Option.some.inj hkey).symm, ha⟩
  | _ => exact absurd hkey (by simp [Action.nestedList?])

theorem listsReadable_nested {key : String} (hkey : nestedKey? entries = some key)
    (h : IsReadable (.table entries)) : ListsReadable key entries := by
  obtain ⟨rfl, haction⟩ := eq_behaviors_of_nestedKey? hkey
  obtain ⟨a, ha, -, hnested⟩ := isReadable_table_iff.mp h
  obtain rfl := Option.some.inj (haction.symm.trans ha)
  obtain ⟨items, hitems, hreadable⟩ := hnested rfl
  exact listsReadable_of_get? hitems hreadable

/-- A command with other nested commands. -/
theorem isReadable_set_nested {key : String} {items : List Value}
    (hkey : nestedKey? entries = some key) (h : IsReadable (.table entries))
    (hitems : ∀ c ∈ items, IsReadable c) : IsReadable (.table (entries.set key (.list items))) := by
  obtain ⟨rfl, haction⟩ := eq_behaviors_of_nestedKey? hkey
  obtain ⟨a, ha, hparams, -⟩ := isReadable_table_iff.mp h
  obtain rfl := Option.some.inj (haction.symm.trans ha)
  refine isReadable_table_iff.mpr
    ⟨.transmit, ?_, hasParams_set_behaviors _ hparams, fun _ => ⟨items, ?_, hitems⟩⟩
  · rw [Table.get?_set, if_neg (by decide)]
    exact haction
  · rw [Table.get?_set, if_pos rfl]

/-- **A change of the list that positions lead to** is a change of the list that they start from:
if the one makes readable commands of readable ones, so does the other. -/
theorem readable_updateList? {create : Bool} {f : List Value → Option (List Value)}
    (hf : KeepsReadable f) {key : String} (positions : Path) {t u : Table Value}
    (h : ListsReadable key t) (hu : updateList? create f key positions t = some u) :
    ∃ items, u = t.set key (.list items) ∧ ∀ c ∈ items, IsReadable c := by
  induction positions generalizing key t u with
  | nil =>
    obtain ⟨items, items', hitems, hitems', rfl⟩ := updateList?_nil_eq_some_iff.mp hu
    exact ⟨items', rfl, hf items items' (readable_listUnder? h hitems) hitems'⟩
  | cons i positions ih =>
    obtain ⟨items, command, nested, changed, hitems, hcommand, hnested, hchanged, rfl⟩ :=
      updateList?_cons_eq_some_iff.mp hu
    have hreadable := readable_listUnder? h hitems
    have hold := hreadable _ (mem_of_itemAt? hcommand)
    obtain ⟨below, rfl, hbelow⟩ := ih (listsReadable_nested hnested hold) hchanged
    exact ⟨_, rfl, forall_mem_replaceItem hreadable (isReadable_set_nested hnested hold hbelow)⟩

/-! ## Edits of commands -/

theorem kindOf?_of_isAction (h : isAction entries = true) :
    kindOf? (.table entries) = some .action := by
  rw [kindOf?_table, of_decide_eq_true h]
  rfl

/-- A sound action node has a list of commands, and they can be read. -/
theorem exists_commands_of_sound (haction : isAction entries = true) (h : Sound (.table entries)) :
    (∃ items, entries.get? commandsKey = some (.list items)) ∧
      ListsReadable commandsKey entries := by
  obtain ⟨-, items, hitems, hreadable⟩ :=
    ((sound_known_iff (kindOf?_of_isAction haction)).mp h).1.own
  exact ⟨⟨items, hitems⟩, listsReadable_of_get? hitems hreadable⟩

/-- An action node with other commands. -/
theorem sound_set_commands {items : List Value}
    (hkind : kindOf? (.table entries) = some .action) (h : Sound (.table entries))
    (hitems : ∀ c ∈ items, IsReadable c) :
    Sound (.table (entries.set commandsKey (.list items))) := by
  obtain ⟨hfits, -⟩ := (sound_known_iff hkind).mp h
  obtain ⟨⟨s, hs⟩, -⟩ := hfits.own
  refine sound_of_leaf ((kindOf?_set (by decide)).trans hkind) rfl rfl
    (closed_set hfits.closed (by decide)) ⟨⟨s, ?_⟩, items, ?_, hitems⟩
  · rw [Table.get?_set, if_neg (by decide)]
    exact hs
  · exact (Table.get?_set entries commandsKey "behaviors" _).trans (if_pos rfl)

theorem sound_editList {create : Bool} {f : List Value → Option (List Value)}
    (hf : KeepsReadable f) {root : Value} (h : Sound root) (path positions : Path) :
    Sound (editList create root path positions f) := by
  refine sound_editAt ?_ h path
  intro t u ht hu
  simp only at hu
  split at hu
  · rename_i haction
    obtain ⟨-, hlists⟩ := exists_commands_of_sound haction ht
    obtain ⟨changed, rfl, hchanged⟩ := readable_updateList? hf positions hlists hu
    exact sound_set_commands (kindOf?_of_isAction haction) ht hchanged
  · exact absurd hu (by simp)

theorem sound_editSiblings {f : Int → List Value → Option (List Value)}
    (hf : ∀ i, KeepsReadable (f i)) {root : Value} (h : Sound root) (path command : Path) :
    Sound (editSiblings root path command f) := by
  unfold editSiblings
  cases command.getLast? with
  | none => exact h
  | some i => exact sound_editList (hf i) h path _

/-- A new command of any action can be read. -/
theorem isReadable_fresh (a : Action) :
    IsReadable (.table (("action", .text a.name) :: a.defaults) : Value) := by
  refine isReadable_table_iff.mpr ⟨a, ?_, ?_, ?_⟩
  · exact Action.ofName?_name a
  · cases a with
    | simple s => exact ⟨_, rfl⟩
    | spawn what => exact ⟨_, rfl⟩
    | _ => exact ⟨_, rfl⟩
  · intro ha
    cases a with
    | transmit => exact ⟨[], rfl, fun _ h => absurd h List.not_mem_nil⟩
    | _ => exact absurd ha (by simp [Action.nestedList?])

end Tree

open Bestiary.Tree

/-- The edits of a tree that take nothing from their caller but places, kinds and actions. -/
inductive StructuralEdit where
  | insertChild (path : Path)
  | fillSlot (path : Path) (slot : Int)
  | delete (path : Path)
  | move (path : Path) (offset : Int)
  | retype (path : Path) (kind : NodeKind)
  | insertCommand (path positions : Path)
  | deleteCommand (path command : Path)
  | moveCommand (path command : Path) (offset : Int)
  | retypeCommand (path command : Path) (action : Action)

namespace StructuralEdit

/-- The tree after a structural edit. -/
def apply (e : StructuralEdit) (root : Value) : Value :=
  match e with
  | .insertChild path => Tree.insertChild root path none
  | .fillSlot path slot => Tree.fillSlot root path slot
  | .delete path => Tree.delete root path
  | .move path offset => Tree.move root path offset
  | .retype path kind => Tree.retype root path kind
  | .insertCommand path positions => Tree.insertCommand root path positions none
  | .deleteCommand path command => Tree.deleteCommand root path command
  | .moveCommand path command offset => Tree.moveCommand root path command offset
  | .retypeCommand path command action => Tree.retypeCommand root path command action

/-- **Every structural edit keeps trees sound**, wherever it is addressed. -/
theorem sound_apply (e : StructuralEdit) {root : Value} (h : Sound root) :
    Sound (e.apply root) := by
  cases e with
  | insertChild path => exact sound_editAt sound_withChild h path
  | fillSlot path slot => exact sound_editAt (sound_withSlotFilled slot) h path
  | delete path => exact sound_editParent sound_withoutChild h path
  | move path offset => exact sound_editParent (sound_withChildMoved offset) h path
  | retype path kind => exact sound_editAt (sound_retyped kind) h path
  | insertCommand path positions =>
    refine sound_editList ?_ h path positions
    intro items items' hitems hi
    obtain rfl := Option.some.inj hi
    refine List.forall_mem_append.mpr ⟨hitems, List.forall_mem_singleton.mpr ?_⟩
    exact isReadable_fresh (.simple .moveDown)
  | deleteCommand path command =>
    refine sound_editSiblings ?_ h path command
    intro i items items' hitems hi
    exact forall_mem_removeItem? hitems hi
  | moveCommand path command offset =>
    refine sound_editSiblings ?_ h path command
    intro i items items' hitems hi
    exact forall_mem_swapItem? hitems hi
  | retypeCommand path command action =>
    refine sound_editSiblings ?_ h path command
    intro i items items' hitems hi
    obtain ⟨v, hv, hi⟩ := Option.bind_eq_some_iff.mp hi
    obtain ⟨t, ht, hi⟩ := Option.bind_eq_some_iff.mp hi
    obtain ⟨changed, hchanged, hi⟩ := Option.bind_eq_some_iff.mp hi
    obtain rfl := Option.some.inj hi
    simp only at hchanged
    split at hchanged
    · exact absurd hchanged (by simp)
    · obtain rfl := Option.some.inj hchanged
      exact forall_mem_replaceItem hitems (isReadable_fresh action)

end StructuralEdit

end Bestiary
