import Bestiary.Proofs.Tree.Place

/-!
# Listing the nodes of a tree

A tree lists the path of every node, a node before what is below it. The listing goes by the number
of places that a node has for children, a path is followed by looking one child up; both lead to the
same nodes, in whatever state the tree is.

* `paths_eq` says what the listing of a node is made of: itself, then what is listed below the child
  at each of its places, if one stands there.
* `mem_paths_iff`: a path is listed iff it leads to a node.
* `pairwise_paths`: the paths ascend.
* `pathsBelow` are the paths at and below a node, `describe_eq_map` shows each of them.
* `paths_enumerates` says both of the listing of a whole tree.
-/

namespace Bestiary.Tree

variable {v c : Value} {i : Int} {n : Nat} {path : Path}

/-! ## The listing of a node -/

/-- What is listed of the child at a place and below it, from its parent on. -/
def pathsAt (v : Value) (n : Nat) : List Path :=
  ((childAt? v n).map fun c => (paths c).map ((n : Int) :: ·)).getD []

/-- What is made of the items of a list with their positions is made position by position. -/
theorem flatMap_zipIdx {α β : Type} (items : List α) (f : α × Nat → List β) :
    items.zipIdx.flatMap f =
      (List.range items.length).flatMap fun n => (items[n]?.map fun a => f (a, n)).getD [] := by
  suffices h : ∀ k, (items.zipIdx k).flatMap f =
      (List.range items.length).flatMap fun n => (items[n]?.map fun a => f (a, k + n)).getD [] by
    simpa using h 0
  induction items with
  | nil => exact fun _ => rfl
  | cons a items ih =>
    intro k
    rw [List.zipIdx_cons, List.flatMap_cons, ih, List.length_cons, List.range_succ_eq_map,
      List.flatMap_cons, List.flatMap_map]
    simp [Nat.add_comm, Nat.add_left_comm]

theorem pathsFrom_eq (n : Nat) (items : List Value) :
    pathsFrom n items =
      (items.zipIdx n).flatMap fun (c, n) => (paths c).map (Int.ofNat n :: ·) := by
  induction items generalizing n with
  | nil => rfl
  | cons c items ih => rw [pathsFrom, ih, List.zipIdx_cons, List.flatMap_cons]

theorem pathsUnder_eq (key : String) (entries : Table Value) :
    pathsUnder key entries = pathsFrom 0 (((entries.get? key).bind Data.list?).getD []) := by
  induction entries with
  | nil => rfl
  | cons e entries ih =>
    obtain ⟨k, v⟩ := e
    rw [pathsUnder, Table.get?_cons]
    split
    · cases v <;> rfl
    · exact ih

theorem pathsIn_eq (key : String) (entries : Table Value) :
    pathsIn key entries = ((entries.get? key).map paths).getD [] := by
  induction entries with
  | nil => rfl
  | cons e entries ih =>
    obtain ⟨k, v⟩ := e
    rw [pathsIn, Table.get?_cons]
    split
    · rfl
    · exact ih

section Kinds

variable {kind : NodeKind} {entries : Table Value}

/-- A list of children is listed place by place. -/
theorem pathsUnder_eq_flatMap {field : String} (hkind : kindOf? (.table entries) = some kind)
    (hlist : kind.layout.listField = some field) :
    pathsUnder field entries =
      (List.range (childCount (.table entries))).flatMap (pathsAt (.table entries)) := by
  have hcount : childCount (.table entries) =
      (((entries.get? field).bind Data.list?).getD []).length := by
    simp only [childCount, hkind, Data.table?, hlist, childList?, Option.bind_some]
  rw [hcount, pathsUnder_eq, pathsFrom_eq, flatMap_zipIdx]
  refine List.flatMap_congr fun n _ => ?_
  rw [pathsAt, childAt?_of_listField hkind hlist]
  cases (entries.get? field).bind Data.list? with
  | none => rfl
  | some items => rw [Option.bind_some, ← Int.ofNat_eq_natCast, itemAt?_ofNat]; rfl

/-- Slots are listed place by place. -/
theorem pathsIn_eq_flatMap (hkind : kindOf? (.table entries) = some kind)
    (hlist : kind.layout.listField = none) :
    (kind.layout.slots.zipIdx.flatMap fun (s, n) =>
        (pathsIn s.field entries).map (Int.ofNat n :: ·)) =
      (List.range (childCount (.table entries))).flatMap (pathsAt (.table entries)) := by
  have hcount : childCount (.table entries) = kind.layout.slots.length := by
    simp only [childCount, hkind, Data.table?, hlist]
  rw [hcount, flatMap_zipIdx]
  refine List.flatMap_congr fun n _ => ?_
  rw [pathsAt, childAt?_of_slots hkind hlist, ← Int.ofNat_eq_natCast, itemAt?_ofNat]
  cases kind.layout.slots[n]? with
  | none => rfl
  | some s =>
    simp only [Option.map_some, Option.getD_some, Option.bind_some, pathsIn_eq]
    cases entries.get? s.field <;> rfl

end Kinds

/-- **The listing of a node**: the node, and at each of its places what is listed of the child. -/
theorem paths_eq (v : Value) :
    paths v = [] :: (List.range (childCount v)).flatMap (pathsAt v) := by
  cases v with
  | table entries =>
    rw [paths]
    cases hkind : kindOf? (.table entries) with
    | none => simp [childCount, hkind]
    | some kind =>
      cases hlist : kind.layout.listField with
      | some field => simp only [hlist, pathsUnder_eq_flatMap hkind hlist]
      | none => simp only [hlist, pathsIn_eq_flatMap hkind hlist]
  | _ => rfl

/-! ## What is listed -/

/-- A child stands at one of the places that are gone through. -/
theorem exists_place_of_childAt? (h : childAt? v i = some c) : ∃ n < childCount v, i = n := by
  have hat {α : Type} {items : List α} {a : α} (hi : itemAt? items i = some a) :
      ∃ n < items.length, i = n := by
    unfold itemAt? at hi
    split at hi
    · cases hi
    · exact ⟨i.toNat, (List.getElem?_eq_some_iff.mp hi).1, by omega⟩
  cases childAt?_eq_some_iff.mp h with
  | item hkind hlist hitems hi =>
    simpa [childCount, hkind, Data.table?, hlist, childList?, hitems, Data.list?] using hat hi
  | slot hkind hlist hs hc => simpa [childCount, hkind, Data.table?, hlist] using hat hs

/-- Every position on a path that leads to a node is a place of a node on the way. -/
theorem exists_place_of_mem {root : Value} (h : nodeAt? root path = some v) (hi : i ∈ path) :
    ∃ front n, n < childCountAt root front ∧ i = (n : Nat) := by
  obtain ⟨front, rest, rfl⟩ := List.append_of_mem hi
  rw [nodeAt?_append] at h
  obtain ⟨parent, hparent, hbelow⟩ := Option.bind_eq_some_iff.mp h
  obtain ⟨c, hc, -⟩ := Option.bind_eq_some_iff.mp hbelow
  obtain ⟨n, hn, rfl⟩ := exists_place_of_childAt? hc
  exact ⟨front, n, by rwa [childCountAt, hparent], rfl⟩

theorem mem_pathsAt_iff :
    path ∈ pathsAt v n ↔
      ∃ c below, childAt? v n = some c ∧ below ∈ paths c ∧ path = (n : Int) :: below := by
  unfold pathsAt
  cases childAt? v n <;> simp [eq_comm]

/-- **A path is listed iff it leads to a node.** -/
theorem mem_paths_iff : path ∈ paths v ↔ ∃ w, nodeAt? v path = some w := by
  induction path generalizing v with
  | nil => simp [paths_eq, nodeAt?]
  | cons i path ih =>
    rw [paths_eq, List.mem_cons, List.mem_flatMap, nodeAt?]
    simp only [List.cons_ne_nil, false_or, mem_pathsAt_iff, List.cons.injEq, List.mem_range]
    constructor
    · rintro ⟨n, -, c, below, hc, hbelow, rfl, rfl⟩
      rw [hc, Option.bind_some]
      exact ih.mp hbelow
    · rintro ⟨w, hw⟩
      obtain ⟨c, hc, hw⟩ := Option.bind_eq_some_iff.mp hw
      have hbelow := ih.mpr ⟨w, hw⟩
      obtain ⟨n, hn, rfl⟩ := exists_place_of_childAt? hc
      exact ⟨n, hn, c, path, hc, hbelow, rfl, rfl⟩

/-- Only the nodes that are listed have places for children. -/
theorem childCountAt_le {root : Value} (h : ∀ path ∈ paths root, childCountAt root path ≤ n)
    (path : Path) : childCountAt root path ≤ n := by
  by_cases hmem : path ∈ paths root
  · exact h path hmem
  · have hnode : nodeAt? root path = none :=
      Option.eq_none_iff_forall_ne_some.mpr fun v hv => hmem (mem_paths_iff.mpr ⟨v, hv⟩)
    rw [childCountAt, hnode]
    exact Nat.zero_le n

/-! ## The order of the listing -/

theorem mem_childValues_of_childAt? {entries : Table Value}
    (h : childAt? (.table entries) i = some c) : ∃ kind, c ∈ childValues kind entries := by
  cases childAt?_eq_some_iff.mp h with
  | @item _ kind _ items hkind hlist hitems hi =>
    refine ⟨kind, List.mem_append_left _ ?_⟩
    rw [childList?_eq_some hlist hitems]
    exact mem_of_itemAt? hi
  | @slot _ kind s hkind hlist hs hc =>
    exact ⟨kind, List.mem_append_right _ (List.mem_filterMap.mpr ⟨s, mem_of_itemAt? hs, hc⟩)⟩

/-- **The paths ascend**, part by part, a path before those that go on from it. -/
theorem pairwise_paths (v : Value) : (paths v).Pairwise (· < ·) := by
  induction v using Tree.induction with
  | leaf v hleaf =>
    cases v with
    | table entries => cases hleaf
    | _ => exact List.pairwise_singleton _ _
  | node entries ih =>
    rw [paths_eq, List.pairwise_cons, List.pairwise_flatMap]
    refine ⟨fun path hpath => ?_, fun n _ => ?_, ?_⟩
    · obtain ⟨n, -, hpath⟩ := List.mem_flatMap.mp hpath
      obtain ⟨c, below, -, -, rfl⟩ := mem_pathsAt_iff.mp hpath
      exact List.nil_lt_cons _ _
    · unfold pathsAt
      cases hc : childAt? (.table entries) n with
      | none => exact .nil
      | some c =>
        obtain ⟨kind, hmem⟩ := mem_childValues_of_childAt? hc
        rw [Option.map_some, Option.getD_some, List.pairwise_map]
        exact (ih kind c hmem).imp fun h => List.cons_lt_cons_iff.mpr (.inr ⟨rfl, h⟩)
    · refine List.pairwise_lt_range.imp fun hlt path hpath path' hpath' => ?_
      obtain ⟨c, below, -, -, rfl⟩ := mem_pathsAt_iff.mp hpath
      obtain ⟨c', below', -, -, rfl⟩ := mem_pathsAt_iff.mp hpath'
      exact List.cons_lt_cons_iff.mpr (.inl (Int.ofNat_lt.mpr hlt))

theorem nodup_of_pairwise_lt {ps : List Path} (h : ps.Pairwise (· < ·)) : ps.Nodup := by
  refine h.imp fun hlt => ?_
  rintro rfl
  exact List.lt_irrefl _ hlt

theorem nodup_paths (v : Value) : (paths v).Nodup := nodup_of_pairwise_lt (pairwise_paths v)

/-! ## Below a path -/

/-- The paths of the node at a path and of those below it, from the root on. -/
def pathsBelow (root : Value) (base : Path) : List Path :=
  ((nodeAt? root base).map fun v => (paths v).map (base ++ ·)).getD []

variable {root : Value} {base : Path}

theorem describe_eq_map (root : Value) (base : Path) :
    describe root base = (pathsBelow root base).map (lineAt root) := by
  unfold describe pathsBelow
  cases nodeAt? root base with
  | none => rfl
  | some v => simp

/-- Nothing is shown below a path iff no node stands there. -/
theorem describe_eq_nil_iff : describe root base = [] ↔ nodeAt? root base = none := by
  unfold describe
  cases nodeAt? root base with
  | none => exact iff_of_true rfl rfl
  | some v => simp [paths_eq]

theorem mem_pathsBelow_iff :
    path ∈ pathsBelow root base ↔ base <+: path ∧ ∃ w, nodeAt? root path = some w := by
  unfold pathsBelow
  constructor
  · intro h
    cases hbase : nodeAt? root base with
    | none => simp [hbase] at h
    | some v =>
      rw [hbase, Option.map_some, Option.getD_some] at h
      obtain ⟨below, hbelow, rfl⟩ := List.mem_map.mp h
      obtain ⟨w, hw⟩ := mem_paths_iff.mp hbelow
      exact ⟨List.prefix_append _ _, w, by rw [nodeAt?_append, hbase, Option.bind_some, hw]⟩
  · rintro ⟨⟨below, rfl⟩, w, hw⟩
    rw [nodeAt?_append] at hw
    obtain ⟨v, hv, hw⟩ := Option.bind_eq_some_iff.mp hw
    rw [hv, Option.map_some, Option.getD_some]
    exact List.mem_map.mpr ⟨below, mem_paths_iff.mpr ⟨w, hw⟩, rfl⟩

theorem pairwise_pathsBelow (root : Value) (base : Path) :
    (pathsBelow root base).Pairwise (· < ·) := by
  unfold pathsBelow
  cases nodeAt? root base with
  | none => exact .nil
  | some v =>
    rw [Option.map_some, Option.getD_some, List.pairwise_map]
    exact (pairwise_paths v).imp List.append_left_lt

theorem nodup_pathsBelow (root : Value) (base : Path) : (pathsBelow root base).Nodup :=
  nodup_of_pairwise_lt (pairwise_pathsBelow root base)

/-! ## Both together -/

/-- **The listing of a tree enumerates its addresses.** Of every value, whatever state it is in as a
tree, a path is listed iff it is a list of positions from zero up that a node stands at; each such
path is listed once; and the paths ascend, part by part, a path before those that go on from it. -/
theorem paths_enumerates (root : Value) :
    (∀ path : Path, path ∈ paths root ↔
      (∀ i ∈ path, 0 ≤ i) ∧ ∃ v, nodeAt? root path = some v) ∧
    (∀ path v, nodeAt? root path = some v → (paths root).count path = 1) ∧
    (paths root).Pairwise (· < ·) := by
  refine ⟨fun path => ?_, fun path v h => ?_, pairwise_paths root⟩
  · rw [mem_paths_iff]
    refine ⟨fun ⟨v, hv⟩ => ⟨fun i hi => ?_, v, hv⟩, And.right⟩
    obtain ⟨_, n, -, rfl⟩ := exists_place_of_mem hv hi
    exact Int.natCast_nonneg n
  · exact List.count_eq_one_of_mem (nodup_paths root) (mem_paths_iff.mpr ⟨v, h⟩)

end Bestiary.Tree
