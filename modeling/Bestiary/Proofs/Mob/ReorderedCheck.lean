import Bestiary.Proofs.Behavior.Reordered
import Bestiary.Proofs.Data.Reordered
import Bestiary.Proofs.Mob.Check
import Bestiary.Proofs.Tree.Keyed
import Mathlib.Data.Multiset.AddSub
import Mathlib.Data.Multiset.Count

/-!
# Checks and the order of keys

The order of keys decides in which order remarks come, and what they are about. It does not decide
how many there are: of values that differ in nothing else, a check remarks as often with the same
gravity.

* `Check.tally` weighs remarks: how many there are of each gravity, and how many cannot be worded.
* `Check.Respects` says of a check that its tally does not depend on the order of keys.
* `Check.tally_document`: the checks of a document do so, one lemma for each.
* `validate_of_reordered`: verdicts have the same counts.
-/

namespace Bestiary

open Value (Reordered same agree)

/-- What a problem counts as: how grave it is, and whether it can be worded. -/
def Problem.grade (p : Problem) : Severity × Bool := (p.severity, p.isWordable)

namespace Check

open Bestiary.Tree

/-! ## Tallies -/

/-- The grades of remarks, in no order. -/
def tally (remarks : List Remark) : Multiset (Severity × Bool) :=
  Multiset.ofList (remarks.map fun r => r.problem.grade)

@[simp] theorem tally_nil : tally [] = 0 := rfl

@[simp] theorem tally_append (a b : List Remark) : tally (a ++ b) = tally a + tally b := by
  simp [tally]

@[simp] theorem tally_remark (place : FieldPath) (p : Problem) :
    tally (remark place p) = {p.grade} := rfl

@[simp] theorem tally_remarkIf (c : Prop) [Decidable c] (place : FieldPath) (p : Problem) :
    tally (remarkIf c place p) = if c then {p.grade} else 0 := by
  unfold remarkIf
  split <;> rfl

theorem tally_flatMap_congr {α : Type} {l : List α} {f g : α → List Remark}
    (h : ∀ a ∈ l, tally (f a) = tally (g a)) : tally (l.flatMap f) = tally (l.flatMap g) := by
  induction l with
  | nil => rfl
  | cons a l ih =>
    rw [List.forall_mem_cons] at h
    rw [List.flatMap_cons, List.flatMap_cons, tally_append, tally_append, h.1, ih h.2]

theorem tally_flatMap_perm {α : Type} {l l' : List α} (h : l.Perm l') {f : α → List Remark} :
    tally (l.flatMap f) = tally (l'.flatMap f) :=
  Multiset.coe_eq_coe.mpr ((h.flatMap_right f).map _)

/-- A check finds as much in a value, with its keys in any order and at any place. -/
def RespectsAt (check : FieldPath → Value → List Remark) (v : Value) : Prop :=
  ∀ (place place' : FieldPath) (w : Value), Reordered v w →
    tally (check place v) = tally (check place' w)

/-- A check whose tally does not depend on the order of keys. -/
def Respects (check : FieldPath → Value → List Remark) : Prop := ∀ v, RespectsAt check v

section Shapes

variable {check : FieldPath → Value → List Remark} {bad : Problem}

/-- A check that wants a number. -/
theorem respects_of_number (hbad : ∀ place v, v.number? = none → check place v = remark place bad)
    (hnumber : ∀ place place' n,
      tally (check place (.number n)) = tally (check place' (.number n))) : Respects check := by
  intro v place place' w h
  cases v with
  | number n =>
    obtain rfl := Value.eq_of_leaf_same h.same rfl rfl
    exact hnumber place place' n
  | _ => rw [hbad _ _ rfl, hbad _ _ h.number?_eq.symm, tally_remark, tally_remark]

/-- A check that wants a list. -/
theorem respectsAt_of_list {v : Value}
    (hbad : ∀ place v, v.list? = none → check place v = remark place bad)
    (hlist : ∀ place place' items items', v = .list items → List.Forall₂ Reordered items items' →
      tally (check place (.list items)) = tally (check place' (.list items'))) :
    RespectsAt check v := by
  intro place place' w h
  obtain ⟨items, items', rfl, rfl, hitems⟩ | ⟨t, u, rfl, rfl⟩ | ⟨hv, -, rfl⟩ := h.cases
  · exact hlist place place' items items' rfl hitems
  · rw [hbad _ _ rfl, hbad _ _ rfl, tally_remark, tally_remark]
  · rw [hbad _ _ hv, hbad _ _ hv, tally_remark, tally_remark]

/-- A check that wants a table. -/
theorem respectsAt_of_table {v : Value}
    (hbad : ∀ place v, v.table? = none → check place v = remark place bad)
    (htable : ∀ place place' t u, v = .table t → Reordered (.table t) (.table u) →
      tally (check place (.table t)) = tally (check place' (.table u))) : RespectsAt check v := by
  intro place place' w h
  obtain ⟨items, items', rfl, rfl, -⟩ | ⟨t, u, rfl, rfl⟩ | ⟨-, hv, rfl⟩ := h.cases
  · rw [hbad _ _ rfl, hbad _ _ rfl, tally_remark, tally_remark]
  · exact htable place place' t u rfl h
  · rw [hbad _ _ hv, hbad _ _ hv, tally_remark, tally_remark]

end Shapes

/-! ## Entries and items -/

section Parts

variable {check : FieldPath → Value → List Remark} {t u : Table Value}

theorem tally_entry (h : Reordered (.table t) (.table u)) {key : String}
    (hcheck : ∀ v, t.get? key = some v → RespectsAt check v) (place place' : FieldPath) :
    tally (entry t key check place) = tally (entry u key check place') := by
  unfold entry
  obtain ⟨ht, hu⟩ | ⟨v, w, ht, hu, hvw⟩ := h.get? key
  · rw [ht, hu]
  · rw [ht, hu]
    exact hcheck v ht _ _ w hvw

theorem tally_present (h : Reordered (.table t) (.table u)) (key : String)
    (place place' : FieldPath) : tally (present t key place) = tally (present u key place') := by
  unfold present
  obtain ⟨ht, hu⟩ | ⟨v, w, ht, hu, -⟩ := h.get? key <;> rw [ht, hu]
  rfl

theorem tally_itemsFrom {items items' : List Value}
    (hcheck : ∀ v ∈ items, RespectsAt check v) (h : List.Forall₂ Reordered items items')
    (place place' : FieldPath) (i : Nat) :
    tally (itemsFrom check place i items) = tally (itemsFrom check place' i items') := by
  induction h generalizing i with
  | nil => rfl
  | cons hab _ ih =>
    rw [List.forall_mem_cons] at hcheck
    rw [itemsFrom, itemsFrom, tally_append, tally_append, hcheck.1 _ _ _ hab, ih hcheck.2]

theorem respects_items (hcheck : Respects check) : Respects (items check) := fun _ =>
  respectsAt_of_list
    (fun place v hv => by
      cases v with
      | list items => exact absurd hv (by simp [Data.list?])
      | _ => rfl)
    fun place place' _ _ _ h => tally_itemsFrom (fun v _ => hcheck v) h place place' 0

end Parts

/-! ## Numbers and points -/

theorem respects_positiveInteger : Respects positiveInteger :=
  respects_of_number (fun place v hv => by cases v <;> first | rfl | cases hv)
    fun place place' n => by
      simp only [positiveInteger]
      split <;> simp

theorem respects_positive : Respects positive :=
  respects_of_number (fun place v hv => by cases v <;> first | rfl | cases hv)
    fun place place' n => by simp [positive]

theorem respects_within (least most : Nat) : Respects (within least most) :=
  respects_of_number (fun place v hv => by cases v <;> first | rfl | cases hv)
    fun place place' n => by simp [within]

theorem respects_number : Respects number :=
  respects_of_number (fun place v hv => by cases v <;> first | rfl | cases hv)
    fun _ _ _ => rfl

/-- Each coordinate is found fault with by itself. -/
theorem tally_point_pair (place : FieldPath) (x y : Value) :
    tally (point place (.list [x, y])) =
      (if x.number? = none then {(.error, true)} else 0) +
        if y.number? = none then {(.error, true)} else 0 := by
  rw [point, tally_append]
  congr 1
  · cases x <;> rfl
  · cases y <;> rfl

theorem respects_point : Respects point := fun _ =>
  respectsAt_of_list (fun place v hv => by cases v <;> first | rfl | cases hv)
    fun place place' items items' _ h => by
      obtain _ | ⟨hx, _ | ⟨hy, _ | _⟩⟩ := h
      · rfl
      · rfl
      · rw [tally_point_pair, tally_point_pair, hx.number?_eq, hy.number?_eq]
      · rfl

/-! ## Colliders -/

theorem respects_side (i : Nat) : Respects fun place => side place i :=
  respects_of_number (fun place v hv => by cases v <;> first | rfl | cases hv)
    fun place place' n => by simp [side, Problem.grade, Problem.severity, Problem.isWordable]

theorem respects_rectangle : Respects fun place => measures place "Rectangle" := fun _ =>
  respectsAt_of_list (fun place v hv => by cases v <;> first | rfl | cases hv)
    fun place place' items items' _ h => by
      obtain _ | ⟨hx, _ | ⟨hy, _ | _⟩⟩ := h
      · rfl
      · rfl
      · simp only [measures, tally_append]
        rw [respects_side 0 _ place place' _ hx, respects_side 1 _ place place' _ hy]
      · rfl

theorem respects_circle : Respects fun place => measures place "Circle" :=
  respects_of_number (fun place v hv => by cases v <;> first | rfl | cases hv)
    fun place place' n => by simp [measures]

theorem respects_capsule : Respects fun place => measures place "Capsule" := fun _ =>
  respectsAt_of_list (fun place v hv => by cases v <;> first | rfl | cases hv)
    fun place place' items items' _ h => by
      obtain _ | ⟨hx, _ | ⟨hy, _ | _⟩⟩ := h <;> rfl

theorem respects_measures (name : String) : Respects fun place => measures place name := by
  by_cases hrectangle : name = "Rectangle"
  · subst hrectangle
    exact respects_rectangle
  by_cases hcircle : name = "Circle"
  · subst hcircle
    exact respects_circle
  by_cases hcapsule : name = "Capsule"
  · subst hcapsule
    exact respects_capsule
  have hother : ∀ place v, measures place name v = remark place (.unknownShape name) := by
    intro place v
    unfold measures
    split <;> first | rfl | contradiction
  intro v place place' w _
  simp only [hother, tally_remark]

theorem respects_shape : Respects shape := fun _ =>
  respectsAt_of_table (fun place v hv => by cases v <;> first | rfl | cases hv)
    fun place place' t u _ h => by
      obtain ⟨u', hpaired, hperm⟩ := h.exists_paired
      cases hpaired with
      | nil =>
        obtain rfl := hperm.nil_eq
        rfl
      | @cons e e' _ _ he hrest =>
        obtain ⟨name, v⟩ := e
        obtain ⟨_, w⟩ := e'
        obtain ⟨rfl, hvw⟩ := he
        cases hrest with
        | nil =>
          obtain rfl := List.perm_singleton.mp hperm.symm
          exact respects_measures _ v place place' w hvw
        | cons _ _ =>
          -- More than one entry on either side.
          obtain _ | ⟨_, _ | ⟨_, _⟩⟩ := u
          · exact absurd hperm.length_eq (by simp)
          · exact absurd hperm.length_eq (by simp)
          · rfl

theorem respects_collider : Respects collider := fun _ =>
  respectsAt_of_table (fun place v hv => by cases v <;> first | rfl | cases hv)
    fun place place' t u _ h => by
      simp only [collider, tally_append, tally_present h _ place place',
        tally_entry h (fun v _ => respects_shape v) place place',
        tally_entry h (fun v _ => respects_point v) place place',
        tally_entry h (fun v _ => respects_number v) place place']

/-! ## Spawners, joints, decorations -/

theorem respects_spawner (needed : List String) : Respects (spawner needed) := fun _ =>
  respectsAt_of_table (fun place v hv => by cases v <;> first | rfl | cases hv)
    fun place place' t u _ h => by
      simp only [spawner, tally_append, tally_present h _ place place',
        tally_entry h (fun v _ => respects_positive v) place place',
        tally_flatMap_congr fun field _ => tally_present h field place place']

/-- Spawners are looked at one by one, in the order of their keys. -/
theorem respects_spawnerTable (needed : List String) : Respects (spawnerTable needed) := fun _ =>
  respectsAt_of_table (fun place v hv => by cases v <;> first | rfl | cases hv)
    fun place place' t u ht h => by
      obtain ⟨u', hpaired, hperm⟩ := h.exists_paired
      simp only [spawnerTable]
      rw [← tally_flatMap_perm hperm]
      clear ht h hperm
      induction hpaired with
      | nil => rfl
      | @cons e e' _ _ he _ ih =>
        rw [List.flatMap_cons, List.flatMap_cons, tally_append, tally_append, ih,
          respects_spawner needed e.2 _ (place' ++ [.key e'.1]) e'.2 he.2]

theorem respects_spawners (needed : List String) : Respects (spawners needed) := fun _ =>
  respectsAt_of_table (fun place v hv => by cases v <;> first | rfl | cases hv)
    fun place place' t u _ h =>
      tally_entry h (fun v _ => respects_spawnerTable needed v) place place'

theorem respects_joint : Respects joint := fun _ =>
  respectsAt_of_table (fun place v hv => by cases v <;> first | rfl | cases hv)
    fun place place' t u _ h => by
      simp only [joint, tally_append, tally_present h _ place place']

theorem respects_decoration : Respects decoration := fun _ =>
  respectsAt_of_list (fun place v hv => by cases v <;> first | rfl | cases hv)
    fun place place' items items' _ h => by
      obtain _ | ⟨hsprite, _ | ⟨hposition, _ | _⟩⟩ := h
      · rfl
      · rfl
      · simp only [decoration, tally_append, tally_remarkIf, hsprite.text?_eq]
        congr 1
        obtain ⟨_, _, rfl, rfl, h⟩ | ⟨_, _, rfl, rfl⟩ | ⟨hlist, -, rfl⟩ := hposition.cases
        · obtain _ | ⟨_, _ | ⟨_, _ | _⟩⟩ := h <;> rfl
        · rfl
        · rename_i v _
          cases v <;> first | rfl | cases hlist
      · rfl

/-! ## Commands -/

section Trees

variable {t u : Table Value}

theorem reordered_noItems : Reordered (.list []) (.list []) :=
  .refl (Data.wellKeyed_list_iff.mpr (List.forall_mem_nil _))

theorem reordered_noItemsUnder (h : Reordered (.table t) (.table u)) (field? : Option String) :
    Reordered
      (.table (match field? with
        | some field => t.set field (.list [])
        | none => t))
      (.table (match field? with
        | some field => u.set field (.list [])
        | none => u)) := by
  cases field? with
  | none => exact h
  | some field => exact h.set reordered_noItems field

theorem tally_parameters (h : Reordered (.table t) (.table u)) (a : Action)
    (place place' : FieldPath) :
    tally (parameters place a t) = tally (parameters place' a u) := by
  have hown := reordered_noItemsUnder h a.nestedList?
  have hread := (Command.read_and_readList_of_reordered hown).1
  have hread' := (Command.read_and_readList_of_reordered hown.symm).1
  unfold parameters
  simp only
  split
  · rename_i c hc
    split
    · rfl
    · rename_i reason hreason
      exact absurd (hreason.symm.trans (hread c hc)) (by simp)
  · rename_i reason hreason
    split
    · rename_i c hc
      exact absurd (hreason.symm.trans (hread' c hc)) (by simp)
    · rfl

theorem tally_commandsUnder (h : Reordered (.table t) (.table u)) {key : String}
    (hcommands : ∀ v, t.get? key = some v → RespectsAt commands v) (place place' : FieldPath) :
    tally (commandsUnder key place t) = tally (commandsUnder key place' u) := by
  rw [commandsUnder_eq, commandsUnder_eq]
  obtain ⟨ht, hu⟩ | ⟨v, w, ht, hu, hvw⟩ := h.get? key <;> rw [ht, hu]
  · rfl
  · exact hcommands v ht place place' w hvw

/-- The check of an action that a table names. -/
theorem tally_command_table (h : Reordered (.table t) (.table u))
    (hcommands : ∀ key v, t.get? key = some v → RespectsAt commands v) (place place' : FieldPath) :
    tally (command place (.table t)) = tally (command place' (.table u)) := by
  rw [command, command]
  obtain ⟨ht, hu⟩ | ⟨named, named', ht, hu, hnamed⟩ := h.get? "action" <;> rw [ht, hu]
  · rfl
  · simp only [hnamed.text?_eq]
    cases named'.text?.bind Action.ofName? with
    | none => simp [Problem.grade, Problem.severity, Problem.isWordable, hnamed.isShowable_eq]
    | some a =>
      simp only [tally_append, tally_parameters h a place place']
      congr 1
      cases a.nestedList? with
      | none => rfl
      | some field => exact tally_commandsUnder h (hcommands field) _ _

/-- **Step**: what is true of the lists below a command and of the commands in a list. -/
theorem respectsAt_command_of_below {v : Value}
    (htable : ∀ t : Table Value, v = .table t → ∀ e ∈ t, RespectsAt commands e.2)
    (hlist : ∀ items, v = .list items → ∀ d ∈ items, RespectsAt command d) :
    RespectsAt command v ∧ RespectsAt commands v := by
  constructor
  · refine respectsAt_of_table command_of_table?_eq_none fun place place' t u hv h => ?_
    exact tally_command_table h (fun _ _ hget => htable t hv _ (Table.mem_of_get? hget)) place place'
  · refine respectsAt_of_list commands_of_list?_eq_none fun place place' items items' hv h => ?_
    rw [commands, commands, commandsFrom_eq, commandsFrom_eq]
    exact tally_itemsFrom (hlist items hv) h place place' 0

/-- **The check of commands does not depend on the order of keys.** -/
theorem respects_command_and_commands (v : Value) :
    RespectsAt command v ∧ RespectsAt commands v := by
  induction v using Data.induction with
  | list items ih =>
    refine respectsAt_command_of_below (fun _ h => absurd h (by simp)) fun items' h d hd => ?_
    obtain rfl := Data.list.inj h
    exact (ih d hd).1
  | table t ih =>
    refine respectsAt_command_of_below (fun t' h e he => ?_) fun _ h => absurd h (by simp)
    obtain rfl := Data.table.inj h
    exact (ih e he).2
  | _ =>
    exact respectsAt_command_of_below (fun _ h => absurd h (by simp))
      fun _ h => absurd h (by simp)

/-! ## Nodes -/

theorem reordered_fillers {slots : List Slot}
    (hfillers : ∀ s ∈ slots, Data.WellKeyed (.table s.filler))
    (h : Reordered (.table t) (.table u)) :
    Reordered
      (.table (slots.foldl (fun (t : Table Value) s => t.set s.field (.table s.filler)) t))
      (.table (slots.foldl (fun (t : Table Value) s => t.set s.field (.table s.filler)) u)) := by
  induction slots generalizing t u with
  | nil => exact h
  | cons s slots ih =>
    rw [List.forall_mem_cons] at hfillers
    exact ih hfillers.2 (h.set (.refl hfillers.1) s.field)

/-- The stand-ins for children and commands are the same in both tables. -/
theorem reordered_withStandIns (kind : NodeKind) (h : Reordered (.table t) (.table u)) :
    Reordered (.table (withStandIns kind t)) (.table (withStandIns kind u)) := by
  have hfillers : ∀ s ∈ kind.layout.slots, Data.WellKeyed (.table s.filler) :=
    fun _ hs => wellKeyed_filler hs
  have hslotted := reordered_fillers hfillers (reordered_noItemsUnder h kind.layout.listField)
  unfold withStandIns
  simp only
  split
  · exact hslotted.set reordered_noItems "behaviors"
  · exact hslotted

theorem tally_ownFields (h : Reordered (.table t) (.table u)) (kind : NodeKind)
    (place place' : FieldPath) :
    tally (ownFields place kind t) = tally (ownFields place' kind u) := by
  have hstub := reordered_withStandIns kind h
  have hunknown : ∀ n : Behavior, (unreadable? n).isSome = n.isUnknown := by
    intro n
    cases n <;> rfl
  have hsome : (unreadable? (Node.read (.table (withStandIns kind t)))).isSome =
      (unreadable? (Node.read (.table (withStandIns kind u)))).isSome := by
    rw [hunknown, hunknown, Bool.eq_iff_iff, ← Bool.not_eq_false, ← Bool.not_eq_false]
    exact not_congr ⟨Node.isUnknown_read_of_reordered hstub,
      Node.isUnknown_read_of_reordered hstub.symm⟩
  unfold ownFields
  cases ht : unreadable? (Node.read (.table (withStandIns kind t))) <;>
    cases hu : unreadable? (Node.read (.table (withStandIns kind u))) <;>
    simp_all [Problem.grade, Problem.severity, Problem.isWordable]

theorem respectsAt_children {v : Value} (hnode : ∀ x ∈ v.list?.getD [], RespectsAt node x) :
    RespectsAt children v :=
  respectsAt_of_list (fun place v hv => by cases v <;> first | rfl | cases hv)
    fun place place' items items' hv hitems => by
      obtain rfl := hv
      rw [children, children, childrenFrom_eq, childrenFrom_eq]
      exact tally_itemsFrom hnode hitems place place' 0

theorem tally_listed (h : Reordered (.table t) (.table u)) {kind : NodeKind}
    (hnode : ∀ v ∈ (childList? kind t).getD [], RespectsAt node v) (place place' : FieldPath) :
    tally (listed place kind t) = tally (listed place' kind u) := by
  unfold childList? at hnode
  unfold listed
  cases hfield : kind.layout.listField with
  | none => rfl
  | some field =>
    simp only [hfield, Option.bind_some] at hnode
    simp only [childList_eq]
    obtain ⟨ht, hu⟩ | ⟨v, w, ht, hu, hvw⟩ := h.get? field <;> rw [ht, hu]
    · rfl
    · rw [ht] at hnode
      exact respectsAt_children hnode _ _ w hvw

theorem tally_slotted (h : Reordered (.table t) (.table u)) (s : Slot)
    (hnode : ∀ v, t.get? s.field = some v → RespectsAt node v) (place place' : FieldPath) :
    tally (slotted place s t) = tally (slotted place' s u) := by
  rw [slotted_eq, slotted_eq]
  obtain ⟨ht, hu⟩ | ⟨v, w, ht, hu, hvw⟩ := h.get? s.field <;> rw [ht, hu]
  · rw [tally_remarkIf, tally_remarkIf]
  · exact hnode v ht _ _ w hvw

/-- What is said of a table of no known kind. -/
theorem tally_node_foreign (h : Reordered (.table t) (.table u))
    (hkind : kindOf? (.table t) = none) (place place' : FieldPath) :
    tally (node place (.table t)) = tally (node place' (.table u)) := by
  rw [kindOf?_table] at hkind
  rw [node, node]
  obtain ⟨ht, hu⟩ | ⟨d, d', ht, hu, hd⟩ := h.get? "type" <;> rw [ht, hu]
  · rfl
  · rw [ht, Option.bind_some] at hkind
    obtain ⟨_, _, rfl, rfl, -⟩ | ⟨_, _, rfl, rfl⟩ | ⟨-, -, rfl⟩ := hd.cases
    · rfl
    · rfl
    · cases d' with
      | text name =>
        rw [Data.text?, Option.bind_some] at hkind
        simp only [hkind]
        rfl
      | _ => rfl

/-- **The check of trees does not depend on the order of keys.** -/
theorem respects_node : Respects node := by
  intro v
  induction v using Tree.induction with
  | leaf v hv =>
    intro place place' w h
    have hw := Node.table?_eq_none_of_reordered h hv
    have hbad : ∀ place (v : Value), v.table? = none → node place v = remark place .notTable := by
      intro place v hv
      cases v <;> first | rfl | cases hv
    rw [hbad _ _ hv, hbad _ _ hw, tally_remark, tally_remark]
  | node t ih =>
    intro place place' w h
    obtain ⟨u, rfl⟩ := h.exists_table
    cases hkind : kindOf? (.table t) with
    | none => exact tally_node_foreign h hkind place place'
    | some kind =>
      have hkind' := hkind
      rw [kindOf?_of_reordered h] at hkind'
      rw [node_known place hkind, node_known place' hkind']
      simp only [tally_append]
      congr 1
      · congr 1
        · congr 1
          · exact tally_ownFields h kind place place'
          · exact tally_listed h (fun v hv => ih kind v (List.mem_append_left _ hv)) place place'
        · refine tally_flatMap_congr fun s hs => tally_slotted h s (fun v hv => ?_) place place'
          exact ih kind v (Node.mem_childValues hs hv)
      · split
        · exact tally_commandsUnder h (fun v _ => (respects_command_and_commands v).2) _ _
        · rfl

end Trees

/-! ## Documents -/

section Documents

variable {t u : Table Value}

theorem tally_name (h : Reordered (.table t) (.table u)) (isPatch : Bool) :
    tally (name isPatch t) = tally (name isPatch u) := by
  unfold name
  obtain ⟨ht, hu⟩ | ⟨v, w, ht, hu, hvw⟩ := h.get? "name" <;> rw [ht, hu]
  obtain ⟨_, _, rfl, rfl, -⟩ | ⟨_, _, rfl, rfl⟩ | ⟨-, -, rfl⟩ := hvw.cases <;> rfl

/-- Unknown fields are found in the order of the keys. -/
theorem tally_unknownFields (h : Reordered (.table t) (.table u)) :
    tally (unknownFields t) = tally (unknownFields u) :=
  Multiset.coe_eq_coe.mpr (((h.keys_perm.filter _).map _).map _)

/-- **Every check of a field respects the order of keys.** -/
theorem respects_fieldChecks : ∀ f ∈ fieldChecks, Respects f.2 := by
  have hpoints : ∀ f ∈ pointFields.map fun field => (field, point), Respects f.2 := by
    rw [List.forall_mem_map]
    exact fun _ _ => respects_point
  have hpositives : ∀ f ∈ positiveFields.map fun field => (field, positive), Respects f.2 := by
    rw [List.forall_mem_map]
    exact fun _ _ => respects_positive
  simp only [fieldChecks, List.forall_mem_append, List.forall_mem_cons]
  exact ⟨⟨⟨⟨respects_positiveInteger, respects_positiveInteger, List.forall_mem_nil _⟩, hpoints⟩,
    hpositives⟩, respects_within 0 1, respects_within 0 10, respects_items respects_collider,
    respects_spawners _, respects_spawners _, respects_node, respects_items respects_joint,
    respects_items respects_decoration, List.forall_mem_nil _⟩

/-- **The checks of a document find as much, in any order of keys.** -/
theorem tally_document {v w : Value} (h : Reordered v w) (isPatch : Bool) :
    tally (document isPatch v) = tally (document isPatch w) := by
  obtain ⟨_, _, rfl, rfl, -⟩ | ⟨t, u, rfl, rfl⟩ | ⟨-, -, rfl⟩ := h.cases
  · rfl
  · simp only [document, tally_append]
    rw [tally_unknownFields h, tally_name h isPatch]
    congr 1
    exact tally_flatMap_congr fun f hf =>
      tally_entry h (fun v _ => respects_fieldChecks f hf v) [] []
  · rfl

theorem countP_tally (p : Severity × Bool → Prop) [DecidablePred p] (remarks : List Remark) :
    (tally remarks).countP p = remarks.countP fun r => p r.problem.grade := by
  rw [tally, Multiset.coe_countP, List.countP_map]
  rfl

end Documents

end Check

/-! ## Verdicts -/

/-- How many remarks there are of each severity, and whether a document is valid. -/
def Verdict.totals (v : Verdict) : Nat × Nat × Bool := (v.errorCount, v.warningCount, v.isValid)

/-- There is a verdict iff every remark can be worded, and it counts what the checks tally. -/
theorem totals_validate (isPatch : Bool) (v : Value) :
    (validate isPatch v).toOption.map Verdict.totals =
      let remarks := Check.tally (Check.document isPatch v)
      let errors := remarks.countP fun g => g.1 = .error
      if remarks.countP (fun g => g.2 = false) = 0 then
        some (errors, remarks.countP fun g => g.1 = .warning, decide (errors = 0))
      else none := by
  simp only [Check.countP_tally]
  unfold validate
  simp only
  split
  · rename_i r hr
    have hne : (Check.document isPatch v).countP (fun r => r.problem.grade.2 = false) ≠ 0 := by
      have hworded : r.problem.isWordable = false := by simpa using List.find?_some hr
      rw [Ne, List.countP_eq_zero]
      exact fun hall => hall r (List.mem_of_find?_eq_some hr) (decide_eq_true hworded)
    rw [if_neg hne]
    rfl
  · rename_i hnone
    have hzero : (Check.document isPatch v).countP (fun r => r.problem.grade.2 = false) = 0 := by
      rw [List.countP_eq_zero]
      intro r hr
      have hworded : r.problem.isWordable = true := by
        simpa using List.find?_eq_none.mp hnone r hr
      simp [Problem.grade, hworded]
    rw [if_pos hzero]
    rfl

/-- **A document with its keys in any order gets a verdict with the same counts**, or none, if there
is something in it that cannot be worded. -/
theorem validate_of_reordered {v w : Value} (h : Reordered v w) (isPatch : Bool) :
    (validate isPatch v).toOption.map Verdict.totals =
      (validate isPatch w).toOption.map Verdict.totals := by
  rw [totals_validate, totals_validate, Check.tally_document h isPatch]

end Bestiary
