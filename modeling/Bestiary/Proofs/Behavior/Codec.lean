import Bestiary.Proofs.Behavior.Written
import Mathlib.Data.Set.List

/-!
# The codec of trees

Trees are read from loose data and written as values. A value is loose data too, and what is read
from it does not depend on which of the two it is taken for; so what is known of reading and writing
values holds of both directions of the codec.

* `Command.readList_loosen` and `Node.read_loosen` say so of commands and of trees.
* `Node.toValue_loosen` and `Node.exists_loosen_eq`: a tree over values can be written as a value,
  and a tree without unknown nodes is one.
* `Node.toValue_lossless`: neither reading a value and writing the tree nor writing a tree and
  reading it again loses anything.
-/

namespace Bestiary

namespace Data

variable {ε δ : Type} {f : ε → δ}

theorem mapItems_eq (items : List (Data ε)) : mapItems f items = items.map (mapAlien f) := by
  induction items with
  | nil => rfl
  | cons d items ih => rw [mapItems, ih, List.map_cons]

/-- What is found under a key. -/
theorem get?_mapEntries (entries : Table (Data ε)) (key : String) :
    Table.get? (mapEntries f entries) key = (entries.get? key).map (mapAlien f) := by
  induction entries with
  | nil => rfl
  | cons e entries ih =>
    obtain ⟨k, d⟩ := e
    rw [mapEntries, Table.get?_cons, Table.get?_cons, ih]
    split <;> rfl

theorem keys_mapEntries (entries : Table (Data ε)) :
    Table.keys (mapEntries f entries) = entries.keys := by
  induction entries with
  | nil => rfl
  | cons e entries ih => rw [mapEntries, Table.keys_cons, Table.keys_cons, ih]

theorem text?_mapAlien (d : Data ε) : (d.mapAlien f).text? = d.text? := by
  cases d <;> rfl

/-- The written form of a value is the same if it is taken for loose data. -/
theorem compact_mapAlien (d : Data ε) : Json.compact (d.mapAlien f) = Json.compact d := by
  induction d using induction with
  | list items ih =>
    have hitems : Json.compactItems (mapItems f items) = Json.compactItems items := by
      induction items with
      | nil => rfl
      | cons d items ihitems =>
        rw [List.forall_mem_cons] at ih
        rw [mapItems, Json.compactItems, Json.compactItems, ih.1, ihitems ih.2]
    rw [mapAlien, Json.compact, Json.compact, hitems]
  | table entries ih =>
    have hentries : Json.compactEntries (mapEntries f entries) = Json.compactEntries entries := by
      induction entries with
      | nil => rfl
      | cons e entries ihentries =>
        rw [List.forall_mem_cons] at ih
        rw [mapEntries, Json.compactEntries, Json.compactEntries, ih.1, ihentries ih.2]
    rw [mapAlien, Json.compact, Json.compact, hentries]
  | _ => rfl

end Data

open Data (mapEntries get?_mapEntries keys_mapEntries)

namespace Value

theorem loosen_list (items : List Value) : loosen (.list items) = .list (items.map loosen) := by
  rw [loosen, Data.mapAlien, Data.mapItems_eq]
  rfl

theorem loosen_table (entries : Table Value) :
    loosen (.table entries) = .table (mapEntries Empty.elim entries) := by
  rw [loosen, Data.mapAlien]

end Value

/-! ## Records -/

namespace Record

open Value (loosen)

variable {α : Type} {entries : Table Value}

theorem asNumber_loosen (v : Value) : asNumber v.loosen = asNumber v := by
  cases v with
  | alien e => exact e.elim
  | _ => rfl

theorem asText_loosen (v : Value) : asText v.loosen = asText v := by
  cases v with
  | alien e => exact e.elim
  | _ => rfl

theorem asList_loosen (v : Value) : asList v.loosen = (asList v).map (List.map loosen) := by
  cases v with
  | list items =>
    rw [Value.loosen_list]
    rfl
  | alien e => exact e.elim
  | _ => rfl

theorem readItems_asText_loosen (v : Value) :
    readItems asText v.loosen = readItems asText v := by
  have hfrom : ∀ (i : Nat) (items : List Value),
      readItemsFrom asText i (items.map loosen) = readItemsFrom asText i items := by
    intro i items
    induction items generalizing i with
    | nil => rfl
    | cons v items ih => rw [List.map_cons, readItemsFrom, readItemsFrom, asText_loosen, ih]
  rw [readItems, readItems, asList_loosen]
  cases asList v with
  | error issue => rfl
  | ok items => exact hfrom 0 items

/-- A field is read as before if what is under its key is. -/
theorem required_loosen {key : String} {read : Loose → Except Issue α}
    {read' : Value → Except Issue α} (h : ∀ v : Value, read v.loosen = read' v) :
    required (mapEntries Empty.elim entries) key read = required entries key read' := by
  unfold required
  rw [get?_mapEntries]
  cases entries.get? key with
  | none => rfl
  | some v => exact congrArg (under (.key key)) (h v)

theorem optional_loosen {key : String} {read : Loose → Except Issue α}
    {read' : Value → Except Issue α} (h : ∀ v : Value, read v.loosen = read' v) :
    Record.optional (mapEntries Empty.elim entries) key read =
      Record.optional entries key read' := by
  unfold Record.optional
  rw [get?_mapEntries]
  cases entries.get? key with
  | none => rfl
  | some v => exact congrArg (fun r => some <$> under (.key key) r) (h v)

theorem closed_loosen (allowed : List String) :
    closed allowed (mapEntries Empty.elim entries : Table Loose) = closed allowed entries := by
  unfold closed unknownKeys
  rw [keys_mapEntries]

end Record

/-! ## Commands -/

namespace Command

open Record
open Value (loosen)

variable {entries : Table Value}

theorem readAction_loosen :
    readAction (mapEntries Empty.elim entries : Table Loose) = readAction entries := by
  unfold readAction
  rw [get?_mapEntries]
  cases entries.get? "action" with
  | none => rfl
  | some v => simp only [Option.map_some, Data.text?_mapAlien, Data.compact_mapAlien]

theorem readParams_loosen (nested : Except Issue (List Command)) (a : Action) :
    readParams (mapEntries Empty.elim entries : Table Loose) nested a =
      readParams entries nested a := by
  cases a <;>
    simp only [readParams, closed_loosen, required_loosen asNumber_loosen,
      required_loosen asText_loosen, required_loosen readItems_asText_loosen,
      optional_loosen readItems_asText_loosen]

/-- What is read as a command, or as a list of commands. -/
theorem read_and_readList_loosen (v : Value) :
    read v.loosen = read v ∧ readList v.loosen = readList v := by
  induction v using Data.induction with
  | list items ih =>
    have hfrom : ∀ i, readFrom i (items.map loosen) = readFrom i items := by
      induction items with
      | nil => exact fun _ => rfl
      | cons v items ihitems =>
        intro i
        rw [List.forall_mem_cons] at ih
        rw [List.map_cons, readFrom, readFrom, ih.1.1, ihitems ih.2]
    rw [Value.loosen_list, readList, readList, hfrom]
    exact ⟨rfl, rfl⟩
  | table entries ih =>
    have hnested : readNested (mapEntries Empty.elim entries : Table Loose) =
        readNested entries := by
      rw [readNested_eq, readNested_eq, get?_mapEntries]
      cases hget : entries.get? "behaviors" with
      | none => rfl
      | some v =>
        exact congrArg (under (.key "behaviors")) (ih _ (Table.mem_of_get? hget)).2
    rw [Value.loosen_table]
    refine ⟨?_, rfl⟩
    rw [read, read, readAction_loosen, hnested]
    simp only [readParams_loosen]
  | alien e => exact e.elim
  | _ => exact ⟨rfl, rfl⟩

/-- Commands are read from a value as from loose data. -/
theorem readList_loosen (v : Value) : readList v.loosen = readList v :=
  (read_and_readList_loosen v).2

end Command

/-! ## Trees -/

namespace Node

open Record

attribute [local simp] loosen

theorem loosenAll_eq (l : List Behavior) : loosenAll l = l.map loosen := by
  induction l with
  | nil => rfl
  | cons n l ih => rw [loosenAll, ih, List.map_cons]

theorem loosen_whileLoop (condition : Option Behavior) (child : Behavior) :
    loosen (.whileLoop condition child) = .whileLoop (condition.map loosen) child.loosen := by
  cases condition <;> simp

theorem loosen_ifThen (condition thenChild : Behavior) (elseChild : Option Behavior) :
    loosen (.ifThen condition thenChild elseChild) =
      .ifThen condition.loosen thenChild.loosen (elseChild.map loosen) := by
  cases elseChild <;> simp

/-! ### Reading -/

variable {entries : Table Value}

theorem declaredKind_loosen :
    declaredKind (mapEntries Empty.elim entries : Table Loose) =
      (declaredKind entries).mapError loosen := by
  have htype : (Table.get? (mapEntries Empty.elim entries : Table Loose) "type").bind Data.text? =
      (entries.get? "type").bind Data.text? := by
    rw [get?_mapEntries, Option.bind_map]
    exact congrArg _ (funext Data.text?_mapAlien)
  unfold declaredKind
  rw [htype]
  cases (entries.get? "type").bind Data.text? with
  | none => simp [Except.mapError, Value.loosen_table]
  | some name =>
    simp only
    cases NodeKind.ofName? name <;> simp [Except.mapError, Value.loosen_table]

theorem checkControl_loosen :
    checkControl (mapEntries Empty.elim entries : Table Loose) = checkControl entries := by
  unfold checkControl
  rw [closed_loosen]
  unfold required
  rw [get?_mapEntries]
  cases entries.get? "children" with
  | none => rfl
  | some v =>
    simp only [Option.map_some]
    rw [← Value.loosen, asList_loosen]
    cases asList v <;> rfl

theorem readLeaf_loosen (kind : NodeKind) :
    readLeaf kind (mapEntries Empty.elim entries : Table Loose) =
      (readLeaf kind entries).map loosen := by
  cases kind with
  | wait =>
    simp only [readLeaf, required_loosen asNumber_loosen, closed_loosen]
    cases required entries "seconds" asNumber with
    | error issue => rfl
    | ok seconds => cases closed ["type", "seconds"] entries <;> rfl
  | action =>
    simp only [readLeaf, required_loosen asText_loosen, required_loosen Command.readList_loosen,
      closed_loosen]
    cases required entries "name" asText with
    | error issue => rfl
    | ok name =>
      cases required entries "behaviors" Command.readList with
      | error issue => rfl
      | ok commands => cases closed ["type", "name", "behaviors"] entries <;> rfl
  | _ =>
    simp only [readLeaf, required_loosen asText_loosen, closed_loosen]
    cases required entries "trigger_type" asText with
    | error issue => rfl
    | ok event => cases closed ["type", "trigger_type"] entries <;> rfl

theorem assemble_loosen (kind : NodeKind) (children : List Behavior)
    (slot : String → Option Behavior) :
    assemble kind (mapEntries Empty.elim entries : Table Loose) (children.map loosen)
        (fun key => (slot key).map loosen) =
      (assemble kind entries children slot).map loosen := by
  unfold assemble
  cases kind with
  | control c =>
    simp only [checkControl_loosen]
    cases checkControl entries <;> simp [Except.map, loosenAll_eq]
  | whileLoop =>
    simp only [closed_loosen]
    cases slot "child" with
    | none => rfl
    | some child =>
      cases closed ["type", "condition", "child"] entries <;>
        simp [Except.map, loosen_whileLoop]
  | ifThen =>
    simp only [closed_loosen]
    cases slot "condition" with
    | none => rfl
    | some condition =>
      cases slot "then_child" with
      | none => rfl
      | some thenChild =>
        cases closed ["type", "condition", "then_child", "else_child"] entries <;>
          simp [Except.map, loosen_ifThen]
  | wait | action | trigger =>
    simp only [readLeaf_loosen]
    cases readLeaf _ entries <;> rfl

theorem readChildren_eq_readListed {ε : Type} [HasKind ε] (key : String)
    (entries : Table (Data ε)) :
    readChildren key entries = ((entries.get? key).map readListed).getD [] := by
  induction entries with
  | nil => rfl
  | cons e rest ih =>
    obtain ⟨k, d⟩ := e
    rw [readChildren, Table.get?_cons]
    split
    · rfl
    · exact ih

/-- **The tree that is read from a value is the same if the value is taken for loose data.** -/
theorem read_loosen (v : Value) : read (Value.loosen v) = (read v).loosen := by
  -- The children in a list are two steps down, so lists are carried along.
  suffices h : read (Value.loosen v) = (read v).loosen ∧
      readListed (Value.loosen v) = (readListed v).map loosen from h.1
  induction v using Data.induction with
  | list items ih =>
    refine ⟨rfl, ?_⟩
    rw [Value.loosen_list, readListed, readListed, readAll_eq, readAll_eq, List.map_map,
      List.map_map]
    exact List.map_congr_left fun v hv => (ih v hv).1
  | table entries ih =>
    refine ⟨?_, rfl⟩
    have hslot : ∀ key, readSlot key (mapEntries Empty.elim entries : Table Loose) =
        (readSlot key entries).map loosen := by
      intro key
      rw [readSlot_eq, readSlot_eq, get?_mapEntries]
      cases hget : entries.get? key with
      | none => rfl
      | some v => exact congrArg some (ih _ (Table.mem_of_get? hget)).1
    have hchildren : readChildren "children" (mapEntries Empty.elim entries : Table Loose) =
        (readChildren "children" entries).map loosen := by
      rw [readChildren_eq_readListed, readChildren_eq_readListed, get?_mapEntries]
      cases hget : entries.get? "children" with
      | none => rfl
      | some v => exact (ih _ (Table.mem_of_get? hget)).2
    rw [Value.loosen_table, read, read, declaredKind_loosen, hchildren]
    simp only [hslot]
    cases declaredKind entries with
    | error found => rfl
    | ok kind =>
      simp only [Except.mapError, assemble_loosen]
      cases assemble kind entries _ _ with
      | error reason => simp [Except.map, orUnknown, Value.loosen_table]
      | ok n => rfl
  | alien e => exact e.elim
  | _ => exact ⟨rfl, rfl⟩

/-! ### Narrowing -/

theorem narrowAll_map_loosen {l : List Behavior} (h : ∀ n ∈ l, n.loosen.narrow = .ok n) :
    narrowAll (l.map loosen) = .ok l := by
  induction l with
  | nil => rfl
  | cons n l ih =>
    rw [List.forall_mem_cons] at h
    rw [List.map_cons, narrowAll, h.1, ih h.2]
    rfl

/-- A tree over values is narrowed to itself. -/
theorem narrow_loosen (n : Behavior) : n.loosen.narrow = .ok n := by
  induction n using induction with
  | step n ih =>
    cases n with
    | control kind children =>
      rw [loosen, loosenAll_eq, narrow, narrowAll_map_loosen (l := children) ih]
      rfl
    | whileLoop condition child =>
      have hchild := ih child (by simp [children])
      cases condition with
      | none =>
        rw [loosen, narrow, hchild]
        rfl
      | some condition =>
        rw [loosen, narrow, ih condition (by simp [children]), hchild]
        rfl
    | ifThen condition thenChild elseChild =>
      have hcondition := ih condition (by simp [children])
      have hthen := ih thenChild (by simp [children])
      cases elseChild with
      | none =>
        rw [loosen, narrow, hcondition, hthen]
        rfl
      | some elseChild =>
        rw [loosen, narrow, hcondition, hthen, ih elseChild (by simp [children])]
        rfl
    | unknown declared raw reason =>
      rw [loosen, narrow, Loose.narrow_loosen]
      rfl
    | _ => rfl

theorem toValue_loosen (n : Behavior) : n.loosen.toValue = .ok n.toData := by
  rw [toValue, narrow_loosen]
  rfl

theorem children_loosen (n : Behavior) : n.loosen.children = n.children.map loosen := by
  cases n with
  | control kind children =>
    rw [loosen, loosenAll_eq]
    rfl
  | whileLoop condition child => cases condition <;> rfl
  | ifThen condition thenChild elseChild => cases elseChild <;> rfl
  | _ => rfl

theorem isUnknown_loosen (n : Behavior) : n.loosen.isUnknown = n.isUnknown := by
  cases n with
  | whileLoop condition child => cases condition <;> rfl
  | ifThen condition thenChild elseChild => cases elseChild <;> rfl
  | _ => rfl

theorem nodes_loosen (n : Behavior) : n.loosen.nodes = n.nodes.map loosen := by
  induction n using induction with
  | step n ih =>
    rw [nodes_eq, nodes_eq n, children_loosen, List.flatMap_map, List.map_cons, List.map_flatMap]
    exact congrArg _ (List.flatMap_congr ih)

/-- A tree without unknown nodes is one over values. -/
theorem exists_loosen_eq {n : Node Foreign} (h : ∀ u ∈ n.nodes, u.isUnknown = false) :
    ∃ b : Behavior, b.loosen = n := by
  induction n using induction with
  | step n ih =>
    rw [nodes_eq, List.forall_mem_cons] at h
    have hchildren : ∀ c ∈ n.children, ∃ b : Behavior, b.loosen = c := fun c hc =>
      ih c hc fun u hu => h.2 u (List.mem_flatMap.mpr ⟨c, hc, hu⟩)
    cases n with
    | control kind children =>
      obtain ⟨bs, rfl⟩ : children ∈ Set.range (List.map loosen) := by
        rw [Set.range_list_map]
        exact hchildren
      exact ⟨.control kind bs, by rw [loosen, loosenAll_eq]⟩
    | whileLoop condition child =>
      obtain ⟨b, rfl⟩ := hchildren child (by simp [children])
      cases condition with
      | none => exact ⟨.whileLoop none b, by rw [loosen]⟩
      | some condition =>
        obtain ⟨c, rfl⟩ := hchildren condition (by simp [children])
        exact ⟨.whileLoop (some c) b, by rw [loosen]⟩
    | ifThen condition thenChild elseChild =>
      obtain ⟨c, rfl⟩ := hchildren condition (by simp [children])
      obtain ⟨t, rfl⟩ := hchildren thenChild (by simp [children])
      cases elseChild with
      | none => exact ⟨.ifThen c t none, by rw [loosen]⟩
      | some elseChild =>
        obtain ⟨e, rfl⟩ := hchildren elseChild (by simp [children])
        exact ⟨.ifThen c t (some e), by rw [loosen]⟩
    | wait seconds => exact ⟨.wait seconds, rfl⟩
    | action name commands => exact ⟨.action name commands, rfl⟩
    | trigger event => exact ⟨.trigger event, rfl⟩
    | unknown declared raw reason => exact absurd h.1 (by simp [isUnknown])

/-! ## The codec -/

/-- **Reading and writing trees loses nothing.** Whatever a value holds, well-formed, unknown or
malformed at any depth, the tree read from it can be written as a value again, and that value is the
same up to the order of keys. And a tree without unknown nodes is written as a value from which it
is read again. -/
theorem toValue_lossless :
    (∀ v : Value, v.WellKeyed →
      ∃ w, (read (Value.loosen v)).toValue = .ok w ∧ Value.same w v = true) ∧
      ∀ n : Node Foreign, (∀ u ∈ n.nodes, u.isUnknown = false) →
        ∃ w, n.toValue = .ok w ∧ read (Value.loosen w) = n := by
  refine ⟨fun v hv => ⟨(read v).toData, ?_, same_toData_read hv⟩, fun n hn => ?_⟩
  · rw [read_loosen, toValue_loosen]
  · obtain ⟨b, rfl⟩ := exists_loosen_eq hn
    rw [nodes_loosen, List.forall_mem_map] at hn
    refine ⟨b.toData, toValue_loosen b, ?_⟩
    rw [read_loosen, read_toData b fun u hu hunknown => ?_]
    have hknown := hn u hu
    rw [isUnknown_loosen, hunknown] at hknown
    exact absurd hknown (by simp)

/-- A sequence with the keys in another order than they are written in, of a node of a type that is
not known, a wait without its seconds, something that is no table, and a loop over an action one of
whose nested commands has an unknown action. -/
def mixture : Value :=
  .table [
    ("children", .list [
      .table [("type", .text "Dance"), ("steps", .list [.natural 1, .flag true])],
      .table [("type", .text "Wait"), ("second", .natural 1)],
      .text "Wait",
      .table [("child", .table [("type", .text "Action"), ("name", .text "swarm"),
        ("behaviors", .list [.table [("action", .text "TransmitMobBehavior"),
          ("mob_type", .text "drone"),
          ("behaviors", .list [.table [("action", .text "Sing")]])]])]),
        ("type", .text "While"), ("condition", .table [("seconds", .natural 2),
          ("type", .text "Wait")])]]),
    ("type", .text "Sequence")]

/-- A tree of known nodes only, with commands inside a command. -/
def swarm : Node Foreign :=
  .whileLoop (some (.wait (.ofSmall 2))) <| .control .forever [
    .ifThen (.trigger "alarm") (.action "call"
      [.transmit "drone" [.transmit "larva" [.spawn .mob (some ["left", "right"])],
        .moveTo .zero .zero], .spawn .projectile none]) none]

theorem toValue_lossless_mixture :
    (mixture.WellKeyed ∧
      ∃ w, (read (Value.loosen mixture)).toValue = .ok w ∧ Value.same w mixture = true) ∧
      (∀ u ∈ swarm.nodes, u.isUnknown = false) ∧
        ∃ w, swarm.toValue = .ok w ∧ read (Value.loosen w) = swarm := by
  have hmixture : mixture.WellKeyed := by
    simp [mixture, Data.WellKeyed, Data.ItemsWellKeyed, Data.EntriesWellKeyed, Data.natural]
  have hswarm : ∀ u ∈ swarm.nodes, u.isUnknown = false := by
    simp [swarm, nodes, nodesOfAll, isUnknown]
  exact ⟨⟨hmixture, toValue_lossless.1 mixture hmixture⟩,
    hswarm, toValue_lossless.2 swarm hswarm⟩

end Node

end Bestiary
