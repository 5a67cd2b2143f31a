import Bestiary.Proofs.Behavior.Place
import Bestiary.Proofs.Behavior.Written
import Bestiary.Proofs.Tree.Edit

/-!
# Addresses of written and of read trees

A path leads to the same node in a written tree and in the tree that is read from it, as long as no
unknown node is on the way: what is below an unknown node is data, whatever it looks like.

* `map_read_childAt?` and `read_updateChild?` are what one step down gives.
* `Tree.replaceAt?` puts a value in the place of a node of a written tree, as `Node.replaceAt` does
  in the tree that is read (`read_replaceAt?`).
* `reads_in_place` puts both together.
-/

namespace Bestiary

/-- No unknown node stands above the end of a path. -/
def Node.OpenTo {ε : Type} (n : Node ε) (path : List Nat) : Prop :=
  ∀ q u, q <+: path → q ≠ path → n.at? q = some u → u.isUnknown = false

theorem Node.openTo_nil {ε : Type} (n : Node ε) : n.OpenTo [] := by
  intro q u hq hne
  exact absurd (List.prefix_nil.mp hq) hne

theorem Node.openTo_cons_iff {ε : Type} {n : Node ε} {i : Nat} {path : List Nat} :
    n.OpenTo (i :: path) ↔
      n.isUnknown = false ∧ ∀ c, n.child? i = some c → c.OpenTo path := by
  constructor
  · intro h
    refine ⟨h [] n List.nil_prefix (by simp) rfl, fun c hc q u hq hne hu => ?_⟩
    refine h (i :: q) u (List.cons_prefix_cons.mpr ⟨rfl, hq⟩) (by simpa using hne) ?_
    rw [at?_cons, hc]
    exact hu
  · rintro ⟨hn, hbelow⟩ q u hq hne hu
    cases q with
    | nil => exact Option.some.inj hu ▸ hn
    | cons j q =>
      obtain ⟨rfl, hbelowq⟩ := List.cons_prefix_cons.mp hq
      obtain ⟨c, hc, hu⟩ := Option.bind_eq_some_iff.mp hu
      exact hbelow c hc q u hbelowq (fun h => hne (by rw [h])) hu

/-- A path that leads to a node has no unknown node above its end. -/
theorem Node.openTo_of_at? {ε : Type} {n m : Node ε} {path : List Nat} (h : n.at? path = some m) :
    n.OpenTo path := by
  induction path generalizing n with
  | nil => exact openTo_nil n
  | cons i path ih =>
    obtain ⟨c, hc, hm⟩ := Option.bind_eq_some_iff.mp h
    refine openTo_cons_iff.mpr ⟨isUnknown_of_child? hc, fun c' hc' => ?_⟩
    obtain rfl := Option.some.inj (hc.symm.trans hc')
    exact ih hm

namespace Tree

variable {kind : NodeKind} {entries : Table Value} {v c c' : Value} {f : Value → Option Value}

theorem itemAt?_ofNat {α : Type} (items : List α) (i : Nat) :
    itemAt? items (Int.ofNat i) = items[i]? := by
  rw [itemAt?, if_neg (by simp)]
  rfl

/-! ## One step down -/

/-- A child that is there can be changed, if the change can be made. -/
theorem exists_updateChild? {i : Int} (h : WrittenAt i c v) (hf : f c = some c') :
    ∃ v', updateChild? f v i = some v' := by
  cases h with
  | item hkind hlist hitems hi => exact ⟨_, updateChild?_item hkind hlist hitems hi hf⟩
  | slot hkind hlist hs hc => exact ⟨_, updateChild?_slot hkind hlist hs hc hf⟩

theorem itemAt?_replaceItem {α : Type} {items : List α} {i : Int} {a : α}
    (h : itemAt? items i = some a) (b : α) (j : Int) :
    itemAt? (replaceItem items i b) j = if j = i then some b else itemAt? items j := by
  unfold itemAt? replaceItem at *
  split at h
  · exact absurd h (by simp)
  · obtain ⟨hlt, -⟩ := List.getElem?_eq_some_iff.mp h
    by_cases hj : j = i
    · subst hj
      simp_all
    · rw [if_neg hj]
      by_cases hneg : j < 0
      · rw [if_pos hneg, if_pos hneg]
      · rw [if_neg hneg, if_neg hneg, List.getElem?_set_ne (by omega)]

/-- No two slots of a node are for one field. -/
theorem eq_of_slots_field {i j : Int} {s t : Slot} (hs : itemAt? kind.layout.slots i = some s)
    (ht : itemAt? kind.layout.slots j = some t) (h : s.field = t.field) : i = j := by
  have hnodup := kind.nodup_slot_fields
  unfold itemAt? at hs ht
  split at hs
  · exact absurd hs (by simp)
  · split at ht
    · exact absurd ht (by simp)
    · have hget : (kind.layout.slots.map Slot.field)[i.toNat]? =
          (kind.layout.slots.map Slot.field)[j.toNat]? := by
        rw [List.getElem?_map, List.getElem?_map, hs, ht, Option.map_some, Option.map_some, h]
      have hlt : i.toNat < (kind.layout.slots.map Slot.field).length := by
        rw [List.length_map]
        exact (List.getElem?_eq_some_iff.mp hs).1
      have hidx := (List.getElem?_inj hlt hnodup).mp hget
      omega

/-- What is put in a slot stands there, and the other slots are as before. -/
theorem childAt?_set_slot {i : Int} {s : Slot} (hkind : kindOf? (.table entries) = some kind)
    (hs : itemAt? kind.layout.slots i = some s) (d : Value) (j : Int) :
    childAt? (.table (entries.set s.field d)) j =
      if j = i then some d else childAt? (.table entries) j := by
  have hmem := mem_of_itemAt? hs
  have hlist := (slots_spec hmem).1
  rw [childAt?_of_slots (kindOf?_set_slot hkind hmem d) hlist, childAt?_of_slots hkind hlist]
  by_cases hj : j = i
  · rw [if_pos hj, hj, hs, Option.bind_some, Table.get?_set, if_pos rfl]
  · rw [if_neg hj]
    refine Option.bind_congr fun t ht => ?_
    rw [Table.get?_set, if_neg fun h => hj (eq_of_slots_field hs ht h).symm]

/-- **A changed child stands in its place, and the others stay.** -/
theorem childAt?_updateChild? {i : Int} {v' : Value} (h : WrittenAt i c v) (hf : f c = some c')
    (hu : updateChild? f v i = some v') (j : Int) :
    childAt? v' j = if j = i then some c' else childAt? v j := by
  cases h with
  | @item entries kind field items hkind hlist hitems hi =>
    obtain rfl := Option.some.inj ((updateChild?_item hkind hlist hitems hi hf).symm.trans hu)
    rw [childAt?_of_listField (kindOf?_set_listField hkind hlist _) hlist,
      childAt?_of_listField hkind hlist, Table.get?_set, if_pos rfl, hitems]
    exact itemAt?_replaceItem hi c' j
  | @slot entries kind s hkind hlist hs hc =>
    obtain rfl := Option.some.inj ((updateChild?_slot hkind hlist hs hc hf).symm.trans hu)
    exact childAt?_set_slot hkind hs c' j

/-! ## One step down in the tree that is read -/

/-- **One step down** leads to what is written at the position, read. -/
theorem map_read_childAt? (h : (Node.read v).isUnknown = false) (i : Nat) :
    (childAt? v (Int.ofNat i)).map Node.read = (Node.read v).child? i := by
  obtain ⟨entries, kind, rfl, hkind, hn⟩ := exists_assembled h
  generalize Node.read (.table entries) = n at hn
  cases kind with
  | control k =>
    obtain ⟨-, items, hitems, rfl⟩ := assembled_control_eq_ok_iff.mp hn
    rw [childAt?_of_listField hkind rfl, hitems, Option.bind_some, Data.list?, Option.bind_some,
      itemAt?_ofNat, Node.child?_control, List.getElem?_map]
  | whileLoop =>
    obtain ⟨-, child, hchild, rfl⟩ := assembled_whileLoop_eq_ok_iff.mp hn
    rw [childAt?_of_slots hkind rfl, itemAt?_ofNat]
    rcases i with _ | _ | i <;> simp [NodeKind.layout, hchild]
  | ifThen =>
    obtain ⟨-, condition, thenChild, hcondition, hthen, rfl⟩ := assembled_ifThen_eq_ok_iff.mp hn
    rw [childAt?_of_slots hkind rfl, itemAt?_ofNat]
    rcases i with _ | _ | _ | i <;> simp [NodeKind.layout, hcondition, hthen]
  | _ =>
    rw [childAt?_of_slots hkind rfl, itemAt?_ofNat, Node.child?_of_children_eq_nil]
    · rfl
    · exact (reflects_of_assembled hn).children.trans (by rfl)

/-- A control node put together with another item in its list of children. -/
theorem assembled_set_item {n : Behavior} {field : String} {items : List Value} (i : Nat)
    (hlist : kind.layout.listField = some field) (hn : assembled kind entries = .ok n)
    (hitems : entries.get? field = some (.list items)) (c' : Value) :
    assembled kind (entries.set field (.list (replaceItem items (Int.ofNat i) c'))) =
      .ok (n.setChild i (Node.read c')) := by
  obtain ⟨rfl, k, rfl⟩ := eq_children_of_listField hlist
  obtain ⟨hclosed, items', hitems', rfl⟩ := assembled_control_eq_ok_iff.mp hn
  obtain rfl := Data.list.inj (Option.some.inj (hitems.symm.trans hitems'))
  refine assembled_control_eq_ok_iff.mpr
    ⟨closed_set hclosed ?_, replaceItem items (Int.ofNat i) c', ?_, ?_⟩
  · exact List.mem_cons_of_mem _ (List.mem_singleton.mpr rfl)
  · rw [Table.get?_set, if_pos rfl]
  · simp [Node.setChild, replaceItem, List.map_set]

/-- A node put together with another child in one of its slots. -/
theorem assembled_set_slot {n : Behavior} {s : Slot} {i : Nat}
    (hs : kind.layout.slots[i]? = some s) (hn : assembled kind entries = .ok n)
    (hc : entries.get? s.field = some c) (c' : Value) :
    assembled kind (entries.set s.field c') = .ok (n.setChild i (Node.read c')) := by
  have hmem : s ∈ kind.layout.slots := List.mem_of_getElem? hs
  cases kind with
  | whileLoop =>
    obtain ⟨hclosed, child, hchild, rfl⟩ := assembled_whileLoop_eq_ok_iff.mp hn
    refine assembled_whileLoop_eq_ok_iff.mpr ⟨closed_set hclosed (mem_keys_layout hmem), ?_⟩
    rcases i with _ | _ | i
    · obtain rfl := Option.some.inj hs
      exact ⟨child, by simp [hchild], by simp [hc, Node.setChild]⟩
    · obtain rfl := Option.some.inj hs
      exact ⟨c', by simp, by simp [Node.setChild]⟩
    · exact absurd hs (by simp [NodeKind.layout])
  | ifThen =>
    obtain ⟨hclosed, condition, thenChild, hcondition, hthen, rfl⟩ :=
      assembled_ifThen_eq_ok_iff.mp hn
    refine assembled_ifThen_eq_ok_iff.mpr ⟨closed_set hclosed (mem_keys_layout hmem), ?_⟩
    rcases i with _ | _ | _ | i
    · obtain rfl := Option.some.inj hs
      exact ⟨c', thenChild, by simp, by simp [hthen], by simp [Node.setChild]⟩
    · obtain rfl := Option.some.inj hs
      exact ⟨condition, c', by simp [hcondition], by simp, by simp [Node.setChild]⟩
    · obtain rfl := Option.some.inj hs
      exact ⟨condition, thenChild, by simp [hcondition], by simp [hthen],
        by simp [hc, Node.setChild]⟩
    · exact absurd hs (by simp [NodeKind.layout])
  | _ => exact absurd hmem List.not_mem_nil

/-- **A changed child is read in its place, and all else as before**, whatever the child is. -/
theorem read_updateChild? {i : Nat} {v' : Value} (hknown : (Node.read v).isUnknown = false)
    (h : WrittenAt (Int.ofNat i) c v) (hf : f c = some c')
    (hu : updateChild? f v (Int.ofNat i) = some v') :
    Node.read v' = (Node.read v).setChild i (Node.read c') := by
  obtain ⟨entries, kind, rfl, hkind, hn⟩ := exists_assembled hknown
  cases h with
  | @item _ kind' field items hkind' hlist hitems hi =>
    obtain rfl := Option.some.inj (hkind.symm.trans hkind')
    obtain rfl := Option.some.inj ((updateChild?_item hkind hlist hitems hi hf).symm.trans hu)
    exact read_of_assembled (kindOf?_set_listField hkind hlist _)
      (assembled_set_item i hlist hn hitems c')
  | @slot _ kind' s hkind' hlist hs hc =>
    obtain rfl := Option.some.inj (hkind.symm.trans hkind')
    obtain rfl := Option.some.inj ((updateChild?_slot hkind hlist hs hc hf).symm.trans hu)
    have hslot := kindOf?_set_slot hkind (mem_of_itemAt? hs) c'
    rw [itemAt?_ofNat] at hs
    exact read_of_assembled hslot (assembled_set_slot hs hn hc c')

/-! ## Paths -/

/-- The path to a node as the editor writes it. -/
abbrev address (path : List Nat) : Path := path.map Int.ofNat

/-- **Both trees have the same nodes** at a path without unknown nodes above its end. -/
theorem map_read_nodeAt? {path : List Nat} (h : (Node.read v).OpenTo path) :
    (nodeAt? v (address path)).map Node.read = (Node.read v).at? path := by
  induction path generalizing v with
  | nil => rfl
  | cons i path ih =>
    obtain ⟨hknown, hbelow⟩ := Node.openTo_cons_iff.mp h
    have hchild := map_read_childAt? hknown i
    rw [address, List.map_cons, nodeAt?, Node.at?_cons, ← hchild]
    cases hc : childAt? v (Int.ofNat i) with
    | none => rfl
    | some c =>
      rw [hc, Option.map_some] at hchild
      exact ih (hbelow _ hchild.symm)

/-- The node that a path leads to was read from what is written there. -/
theorem exists_nodeAt?_of_at? {path : List Nat} {n : Behavior}
    (h : (Node.read v).at? path = some n) :
    ∃ u, nodeAt? v (address path) = some u ∧ Node.read u = n := by
  rw [← map_read_nodeAt? (Node.openTo_of_at? h)] at h
  exact Option.map_eq_some_iff.mp h

/-- The written tree with a value in the place of the node at a path. -/
def replaceAt? (w : Value) : Path → Value → Option Value
  | [], _ => some w
  | i :: path, v => updateChild? (replaceAt? w path) v i

/-- A node that is there can be replaced; the value stands in its place, and apart from it nothing
changes. -/
theorem exists_replaceAt? {path : Path} {u : Value} (h : nodeAt? v path = some u) (w : Value) :
    ∃ v', replaceAt? w path v = some v' ∧ nodeAt? v' path = some w ∧
      ∀ q, ¬path <+: q → ¬q <+: path → nodeAt? v' q = nodeAt? v q := by
  induction path generalizing v with
  | nil => exact ⟨w, rfl, rfl, fun q hq => absurd List.nil_prefix hq⟩
  | cons i path ih =>
    obtain ⟨c, hc, hu⟩ := Option.bind_eq_some_iff.mp h
    obtain ⟨c', hc', hat, hapart⟩ := ih hu
    have hwritten := childAt?_eq_some_iff.mp hc
    obtain ⟨v', hv'⟩ := exists_updateChild? hwritten hc'
    have hchild := childAt?_updateChild? hwritten hc' hv'
    refine ⟨v', hv', ?_, fun q hpq hqp => ?_⟩
    · rw [nodeAt?, hchild, if_pos rfl]
      exact hat
    · cases q with
      | nil => exact absurd List.nil_prefix hqp
      | cons j q =>
        rw [nodeAt?, nodeAt?, hchild]
        by_cases hj : j = i
        · subst hj
          rw [List.cons_prefix_cons] at hpq hqp
          rw [if_pos rfl, hc]
          exact hapart q (fun h => hpq ⟨rfl, h⟩) fun h => hqp ⟨rfl, h⟩
        · rw [if_neg hj]

/-- **Replacing a written node replaces the node that is read**, whatever is put in its place. -/
theorem read_replaceAt? {path : List Nat} {u v' w : Value} (hopen : (Node.read v).OpenTo path)
    (h : nodeAt? v (address path) = some u) (hv' : replaceAt? w (address path) v = some v') :
    Node.read v' = Node.replaceAt path (Node.read w) (Node.read v) := by
  induction path generalizing v v' with
  | nil =>
    obtain rfl := Option.some.inj hv'
    rfl
  | cons i path ih =>
    obtain ⟨hknown, hbelow⟩ := Node.openTo_cons_iff.mp hopen
    obtain ⟨c, hc, hu⟩ := Option.bind_eq_some_iff.mp h
    have hread : (Node.read v).child? i = some (Node.read c) := by
      rw [← map_read_childAt? hknown i, hc]
      rfl
    obtain ⟨c', hc', -⟩ := exists_replaceAt? hu w
    rw [Node.replaceAt, hread]
    exact (read_updateChild? hknown (childAt?_eq_some_iff.mp hc) hc' hv').trans
      (congrArg _ (ih (hbelow _ hread) hu hc'))

/-- **Addresses of written and of read trees agree.** At a path without unknown nodes above its end
the written tree has a node iff the tree that is read has one, which is that node, read. Any value
can be put in the place of such a node; the tree is then read with that value, read, in the place,
and all that is not above or below stays as it was. -/
theorem reads_in_place (v : Value) (path : List Nat)
    (hopen : ∀ q u, q <+: path → q ≠ path → (Node.read v).at? q = some u → u.isUnknown = false) :
    (nodeAt? v (address path)).map Node.read = (Node.read v).at? path ∧
      ∀ u, nodeAt? v (address path) = some u → ∀ w, ∃ v',
        replaceAt? w (address path) v = some v' ∧
          nodeAt? v' (address path) = some w ∧
          (∀ q, ¬address path <+: q → ¬q <+: address path → nodeAt? v' q = nodeAt? v q) ∧
          Node.read v' = Node.replaceAt path (Node.read w) (Node.read v) ∧
          (Node.read v').at? path = some (Node.read w) ∧
          (∀ q, ¬path <+: q → ¬q <+: path → (Node.read v').at? q = (Node.read v).at? q) ∧
          ∀ q r, path = q ++ r → (Node.read v').at? q =
            ((Node.read v).at? q).map (Node.replaceAt r (Node.read w)) := by
  refine ⟨map_read_nodeAt? hopen, fun u hu w => ?_⟩
  obtain ⟨v', hv', hat, hapart⟩ := exists_replaceAt? hu w
  have hread := read_replaceAt? hopen hu hv'
  refine ⟨v', hv', hat, hapart, hread, ?_, ?_, ?_⟩
  · have hnode : (Node.read v).at? path = some (Node.read u) := by
      rw [← map_read_nodeAt? hopen, hu]
      rfl
    rw [hread]
    exact Node.at?_replaceAt hnode _
  · intro q hpq hqp
    rw [hread]
    exact Node.at?_replaceAt_of_apart hpq hqp _ _
  · rintro q r rfl
    rw [hread]
    exact Node.at?_replaceAt_append q r _ _

/-- The only node of the tree that a new behavior starts with can be replaced by something that is
no node at all. -/
theorem reads_in_place_starter :
    (nodeAt? starter (address [0])).map Node.read = (Node.read starter).at? [0] ∧
      ∃ v', replaceAt? (.text "broken") (address [0]) starter = some v' ∧
        Node.read v' =
          .control .forever [.unknown none (.text "broken") (.noTable "node")] := by
  have hopen : ∀ q u, q <+: [0] → q ≠ [0] → (Node.read starter).at? q = some u →
      u.isUnknown = false := by
    intro q u hq hne hu
    cases q with
    | nil =>
      obtain rfl := Option.some.inj hu
      rfl
    | cons i q =>
      obtain ⟨rfl, hnil⟩ := List.cons_prefix_cons.mp hq
      obtain rfl := List.prefix_nil.mp hnil
      exact absurd rfl hne
  obtain ⟨hread, hreplace⟩ := reads_in_place starter [0] hopen
  obtain ⟨v', hv', -, -, hread', -⟩ := hreplace _ rfl (.text "broken")
  exact ⟨hread, v', hv', hread'⟩

end Tree

end Bestiary
