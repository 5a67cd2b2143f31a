import Bestiary.Proofs.Behavior.Node
import Mathlib.Data.List.Nodup

/-!
# Places in trees

The nodes of a tree are addressed by positions, from the root down: the children of a control node
are counted from zero, those in slots have the numbers of the layout.

* `Node.child?` is the child at a position and `Node.at?` the node at a path. `Node.places` lists
  all nodes of a tree with their paths (`map_snd_places`, `mem_places_iff`, `nodup_places`).
* `Node.replaceAt` puts a node in the place of another. `at?_replaceAt_append` says what is found on
  the way to the place, and `at?_replaceAt_of_apart` that all else stays.
-/

namespace Bestiary.Node

variable {ε : Type}

/-! ## Children by position -/

/-- The kind of a node, if it could be read. -/
def kind? : Node ε → Option NodeKind
  | .control kind _ => some (.control kind)
  | .whileLoop .. => some .whileLoop
  | .ifThen .. => some .ifThen
  | .wait _ => some .wait
  | .action .. => some .action
  | .trigger _ => some .trigger
  | .unknown .. => none

/-- The child in the slot for a field. -/
def slot? (field : String) : Node ε → Option (Node ε)
  | .whileLoop condition child =>
    if field = "condition" then condition else if field = "child" then some child else none
  | .ifThen condition thenChild elseChild =>
    if field = "condition" then some condition
    else if field = "then_child" then some thenChild
    else if field = "else_child" then elseChild else none
  | _ => none

/-- The child at a position: an item of the list, or what the slot of that number holds. -/
def child? (n : Node ε) (i : Nat) : Option (Node ε) :=
  match n with
  | .control _ children => children[i]?
  | n => (n.kind?.bind fun kind => kind.layout.slots[i]?).bind fun s => n.slot? s.field

@[simp] theorem child?_control (kind : ControlKind) (children : List (Node ε)) (i : Nat) :
    (Node.control kind children).child? i = children[i]? := rfl

@[simp] theorem child?_whileLoop (condition : Option (Node ε)) (child : Node ε) (i : Nat) :
    (Node.whileLoop condition child).child? i = [condition, some child][i]?.join := by
  match i with
  | 0 | 1 | _ + 2 => rfl

@[simp] theorem child?_ifThen (condition thenChild : Node ε) (elseChild : Option (Node ε))
    (i : Nat) :
    (Node.ifThen condition thenChild elseChild).child? i =
      [some condition, some thenChild, elseChild][i]?.join := by
  match i with
  | 0 | 1 | 2 | _ + 3 => rfl

theorem child?_of_children_eq_nil {n : Node ε} (h : n.children = []) (i : Nat) :
    n.child? i = none := by
  cases n with
  | control kind children =>
    rw [show children = [] from h]
    rfl
  | whileLoop condition child => exact absurd h (by simp [children])
  | ifThen condition thenChild elseChild => exact absurd h (by simp [children])
  | _ => rfl

/-- A node with a child could be read. -/
theorem isUnknown_of_child? {n c : Node ε} {i : Nat} (h : n.child? i = some c) :
    n.isUnknown = false := by
  cases n with
  | unknown declared raw reason => exact absurd h (by simp [child?, kind?])
  | _ => rfl

/-- The children of a node with their positions. -/
def numbered : Node ε → List (Nat × Node ε)
  | .control _ children => children.zipIdx.map Prod.swap
  | .whileLoop condition child => condition.toList.map (Prod.mk 0) ++ [(1, child)]
  | .ifThen condition thenChild elseChild =>
    (0, condition) :: (1, thenChild) :: elseChild.toList.map (Prod.mk 2)
  | _ => []

theorem map_snd_numbered (n : Node ε) : n.numbered.map Prod.snd = n.children := by
  cases n with
  | control kind children =>
    rw [numbered, List.map_map]
    exact List.zipIdx_map_fst 0 children
  | whileLoop condition child => cases condition <;> rfl
  | ifThen condition thenChild elseChild => cases elseChild <;> rfl
  | _ => rfl

theorem mem_numbered_iff {n c : Node ε} {i : Nat} : (i, c) ∈ n.numbered ↔ n.child? i = some c := by
  cases n with
  | control kind children =>
    rw [child?_control, ← List.mk_mem_zipIdx_iff_getElem?, numbered, List.mem_map]
    constructor
    · rintro ⟨⟨d, j⟩, hd, h⟩
      obtain ⟨rfl, rfl⟩ := Prod.mk.inj h
      exact hd
    · intro h
      exact ⟨(c, i), h, rfl⟩
  | whileLoop condition child =>
    match i with
    | 0 | 1 | _ + 2 => cases condition <;> simp [numbered, eq_comm]
  | ifThen condition thenChild elseChild =>
    match i with
    | 0 | 1 | 2 | _ + 3 => cases elseChild <;> simp [numbered, eq_comm]
  | _ =>
    rw [child?_of_children_eq_nil (by rfl)]
    simp [numbered]

theorem nodup_numbered (n : Node ε) : (n.numbered.map Prod.fst).Nodup := by
  cases n with
  | control kind children =>
    rw [numbered, List.map_map]
    exact (List.zipIdx_map_snd 0 children).symm ▸ List.nodup_range' ..
  | whileLoop condition child => cases condition <;> simp [numbered]
  | ifThen condition thenChild elseChild => cases elseChild <;> simp [numbered]
  | _ => exact List.nodup_nil

/-! ## Nodes by path -/

/-- The node at a path. -/
def at? : Node ε → List Nat → Option (Node ε)
  | n, [] => some n
  | n, i :: path => (n.child? i).bind (at? · path)

@[simp] theorem at?_nil (n : Node ε) : n.at? [] = some n := rfl

@[simp] theorem at?_cons (n : Node ε) (i : Nat) (path : List Nat) :
    n.at? (i :: path) = (n.child? i).bind (at? · path) := rfl

theorem at?_append (n : Node ε) (p q : List Nat) : n.at? (p ++ q) = (n.at? p).bind (at? · q) := by
  induction p generalizing n with
  | nil => rfl
  | cons i p ih =>
    rw [List.cons_append, at?_cons, at?_cons, Option.bind_assoc]
    exact congrArg _ (funext ih)

/-- Nodes that stand below a position, as they are placed one step up. -/
def viaChild (i : Nat) (below : List (List Nat × Node ε)) : List (List Nat × Node ε) :=
  below.map fun e => (i :: e.1, e.2)

mutual

/-- Every node of a tree with its path, a node before what is below it. -/
def places : Node ε → List (List Nat × Node ε)
  | .control kind children => ([], .control kind children) :: placesFrom 0 children
  | .whileLoop none child => ([], .whileLoop none child) :: viaChild 1 (places child)
  | .whileLoop (some condition) child =>
    ([], .whileLoop (some condition) child) ::
      (viaChild 0 (places condition) ++ viaChild 1 (places child))
  | .ifThen condition thenChild none =>
    ([], .ifThen condition thenChild none) ::
      (viaChild 0 (places condition) ++ viaChild 1 (places thenChild))
  | .ifThen condition thenChild (some elseChild) =>
    ([], .ifThen condition thenChild (some elseChild)) ::
      (viaChild 0 (places condition) ++
        (viaChild 1 (places thenChild) ++ viaChild 2 (places elseChild)))
  | .wait seconds => [([], .wait seconds)]
  | .action name commands => [([], .action name commands)]
  | .trigger event => [([], .trigger event)]
  | .unknown declared raw reason => [([], .unknown declared raw reason)]

/-- Every node of the trees at the positions from `i` on. -/
def placesFrom (i : Nat) : List (Node ε) → List (List Nat × Node ε)
  | [] => []
  | n :: rest => viaChild i (places n) ++ placesFrom (i + 1) rest

end

theorem placesFrom_eq (i : Nat) (l : List (Node ε)) :
    placesFrom i l = (l.zipIdx i).flatMap fun e => viaChild e.2 e.1.places := by
  induction l generalizing i with
  | nil => rfl
  | cons n rest ih => rw [placesFrom, List.zipIdx_cons, List.flatMap_cons, ih (i + 1)]

/-- The places of a tree are its root and those of the trees below, by position. -/
theorem places_eq (n : Node ε) :
    n.places = ([], n) :: n.numbered.flatMap fun e => viaChild e.1 e.2.places := by
  cases n with
  | control kind children => rw [places, placesFrom_eq, numbered, List.flatMap_map]; rfl
  | whileLoop condition child => cases condition <;> simp [places, numbered]
  | ifThen condition thenChild elseChild => cases elseChild <;> simp [places, numbered]
  | _ => rfl

/-- **The places of a tree hold its nodes.** -/
theorem map_snd_places (n : Node ε) : n.places.map Prod.snd = n.nodes := by
  induction n using induction with
  | step n ih =>
    rw [places_eq, nodes_eq, List.map_cons, List.map_flatMap, ← map_snd_numbered, List.flatMap_map]
    refine congrArg _ (List.flatMap_congr fun e he => ?_)
    rw [viaChild, List.map_map]
    exact ih e.2 (map_snd_numbered n ▸ List.mem_map_of_mem he)

/-- **A node stands in a place iff the path leads to it.** -/
theorem mem_places_iff {n m : Node ε} {path : List Nat} :
    (path, m) ∈ n.places ↔ n.at? path = some m := by
  induction path generalizing n with
  | nil =>
    rw [places_eq, List.mem_cons, at?_nil]
    constructor
    · rintro (h | h)
      · rw [(Prod.mk.inj h).2]
      · obtain ⟨e, -, he⟩ := List.mem_flatMap.mp h
        obtain ⟨_, -, h⟩ := List.mem_map.mp he
        exact absurd (congrArg Prod.fst h) (by simp)
    · rintro ⟨⟩
      exact .inl rfl
  | cons i path ih =>
    rw [places_eq, List.mem_cons, at?_cons, Option.bind_eq_some_iff]
    constructor
    · rintro (h | h)
      · exact absurd (congrArg Prod.fst h) (by simp)
      · obtain ⟨⟨j, c⟩, hc, he⟩ := List.mem_flatMap.mp h
        obtain ⟨⟨q, u⟩, hu, h⟩ := List.mem_map.mp he
        obtain ⟨hpath, rfl⟩ := Prod.mk.inj h
        obtain ⟨rfl, rfl⟩ := List.cons.inj hpath
        exact ⟨c, mem_numbered_iff.mp hc, ih.mp hu⟩
    · rintro ⟨c, hc, hm⟩
      refine .inr (List.mem_flatMap.mpr ⟨(i, c), mem_numbered_iff.mpr hc, ?_⟩)
      exact List.mem_map.mpr ⟨(path, m), ih.mpr hm, rfl⟩

/-- **No two nodes stand in one place.** -/
theorem nodup_places (n : Node ε) : (n.places.map Prod.fst).Nodup := by
  induction n using induction with
  | step n ih =>
    have hstep : n.places.map Prod.fst = [] ::
        n.numbered.flatMap fun e => (e.2.places.map Prod.fst).map (e.1 :: ·) := by
      rw [places_eq, List.map_cons, List.map_flatMap]
      simp only [viaChild, List.map_map]
      rfl
    rw [hstep, List.nodup_cons, List.nodup_flatMap]
    refine ⟨by simp, fun e he => ?_, ?_⟩
    · have hc : e.2 ∈ n.children := map_snd_numbered n ▸ List.mem_map_of_mem he
      exact (ih e.2 hc).map fun _ _ h => (List.cons.inj h).2
    · -- Paths below different positions differ in front.
      refine (List.pairwise_map.mp (nodup_numbered n)).imp fun {e e'} hne path hp hp' => ?_
      obtain ⟨q, -, rfl⟩ := List.mem_map.mp hp
      obtain ⟨q', -, h⟩ := List.mem_map.mp hp'
      exact hne (List.cons.inj h).1.symm

/-! ## Putting a node in a place -/

/-- The node with another child at a position where it has one. -/
def setChild (n : Node ε) (i : Nat) (c : Node ε) : Node ε :=
  match n, i with
  | .control kind children, i => .control kind (children.set i c)
  | .whileLoop (some _) child, 0 => .whileLoop (some c) child
  | .whileLoop condition _, 1 => .whileLoop condition c
  | .ifThen _ thenChild elseChild, 0 => .ifThen c thenChild elseChild
  | .ifThen condition _ elseChild, 1 => .ifThen condition c elseChild
  | .ifThen condition thenChild (some _), 2 => .ifThen condition thenChild (some c)
  | n, _ => n

theorem child?_setChild {n c : Node ε} {i : Nat} (h : n.child? i = some c) (m : Node ε) (j : Nat) :
    (n.setChild i m).child? j = if j = i then some m else n.child? j := by
  cases n with
  | control kind children =>
    obtain ⟨hi, -⟩ := List.getElem?_eq_some_iff.mp h
    rw [setChild, child?_control, child?_control, List.getElem?_set]
    by_cases hij : i = j
    · subst hij
      rw [if_pos rfl, if_pos rfl, if_pos hi]
    · rw [if_neg hij, if_neg (Ne.symm hij)]
  | whileLoop condition child =>
    match i with
    | 0 | 1 | _ + 2 =>
      cases condition with
      | none => match j with
        | 0 | 1 | _ + 2 => simp_all [setChild]
      | some condition => match j with
        | 0 | 1 | _ + 2 => simp_all [setChild]
  | ifThen condition thenChild elseChild =>
    match i with
    | 0 | 1 | 2 | _ + 3 =>
      cases elseChild with
      | none => match j with
        | 0 | 1 | 2 | _ + 3 => simp_all [setChild]
      | some elseChild => match j with
        | 0 | 1 | 2 | _ + 3 => simp_all [setChild]
  | _ =>
    rw [child?_of_children_eq_nil (by rfl)] at h
    exact absurd h (by simp)

/-- The tree with another node at a path; as it was if the path leads nowhere. -/
def replaceAt : List Nat → Node ε → Node ε → Node ε
  | [], m, _ => m
  | i :: path, m, n =>
    match n.child? i with
    | some c => n.setChild i (replaceAt path m c)
    | none => n

theorem child?_replaceAt_cons (i : Nat) (path : List Nat) (m n : Node ε) (j : Nat) :
    (replaceAt (i :: path) m n).child? j =
      if j = i then (n.child? i).map (replaceAt path m) else n.child? j := by
  rw [replaceAt]
  cases hc : n.child? i with
  | none =>
    by_cases hj : j = i
    · rw [if_pos hj, hj, hc]
      rfl
    · rw [if_neg hj]
  | some c => rw [child?_setChild hc, Option.map_some]

/-- **On the way to the place** stands what stood there, with the node put in below. -/
theorem at?_replaceAt_append (q r : List Nat) (m n : Node ε) :
    (replaceAt (q ++ r) m n).at? q = (n.at? q).map (replaceAt r m) := by
  induction q generalizing n with
  | nil => rfl
  | cons i q ih =>
    rw [List.cons_append, at?_cons, at?_cons, child?_replaceAt_cons, if_pos rfl]
    cases n.child? i with
    | none => rfl
    | some c => exact ih c

/-- **In the place** stands the node that was put there. -/
theorem at?_replaceAt {p : List Nat} {n u : Node ε} (h : n.at? p = some u) (m : Node ε) :
    (replaceAt p m n).at? p = some m := by
  have hat := at?_replaceAt_append p [] m n
  rw [List.append_nil, h] at hat
  exact hat

/-- **Apart from the place** nothing changes. -/
theorem at?_replaceAt_of_apart {p q : List Nat} (hpq : ¬p <+: q) (hqp : ¬q <+: p) (m n : Node ε) :
    (replaceAt p m n).at? q = n.at? q := by
  induction p generalizing n q with
  | nil => exact absurd List.nil_prefix hpq
  | cons i p ih =>
    cases q with
    | nil => exact absurd List.nil_prefix hqp
    | cons j q =>
      rw [at?_cons, at?_cons, child?_replaceAt_cons]
      by_cases hj : j = i
      · subst hj
        rw [if_pos rfl, Option.bind_map]
        rw [List.cons_prefix_cons] at hpq hqp
        exact congrArg _ (funext fun c => ih (fun h => hpq ⟨rfl, h⟩) (fun h => hqp ⟨rfl, h⟩) c)
      · rw [if_neg hj]

end Bestiary.Node
