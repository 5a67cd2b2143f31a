import Bestiary.Proofs.Tree.Address

/-!
# What compiling reports

Every node of a tree has its own findings, which depend on nothing but the node: that it could not
be read, that it is a trigger, that a condition or a branch of it is ignored. Compiling reports
those of all nodes, conditions and branches that never run included, and nothing else.

* `Node.reports` are the findings of a node, `Node.codes` their codes.
* `findingsAt_perm` is the step from a tree to the trees below, `findings_perm` the whole tree.
* `compile_reports` adds that no report is made twice, and that each leads to what it is about.
-/

namespace Bestiary

/-- What a report is told apart by: its code and the path of the node. -/
def Diagnostic.key (d : Diagnostic) : String × List Nat := (d.finding.code, d.path)

namespace Node

variable {ε : Type}

/-- What compiling reports about a node itself. -/
def reports : Node ε → List Finding
  | .whileLoop (some _) _ => [.loopConditionIgnored]
  | .ifThen _ _ none => [.branchConditionIgnored]
  | .ifThen _ _ (some _) => [.branchConditionIgnored, .elseIgnored]
  | .trigger event => [.triggerIgnored event]
  | .unknown declared _ reason => [.unknownNode declared reason.text]
  | _ => []

/-- The codes of the reports about a node. -/
def codes : Node ε → List String
  | .whileLoop (some _) _ => ["condition-ignored"]
  | .ifThen _ _ none => ["condition-ignored"]
  | .ifThen _ _ (some _) => ["condition-ignored", "else-ignored"]
  | .trigger _ => ["trigger-unimplemented"]
  | .unknown .. => ["unknown-node"]
  | _ => []

theorem map_code_reports (n : Node ε) : n.reports.map Finding.code = n.codes := by
  cases n with
  | whileLoop condition child => cases condition <;> rfl
  | ifThen condition thenChild elseChild => cases elseChild <;> rfl
  | _ => rfl

theorem nodup_codes (n : Node ε) : n.codes.Nodup := by
  cases n with
  | whileLoop condition child => cases condition <;> simp [codes]
  | ifThen condition thenChild elseChild => cases elseChild <;> simp [codes]
  | _ => simp [codes]

/-- The reports about a node that stands at a path. -/
def reportsAt (path : List Nat) (n : Node ε) : List Diagnostic := n.reports.map (⟨·, path⟩)

/-! ## All reports -/

theorem findingsFrom_eq (path : List Nat) (i : Nat) (l : List (Node ε)) :
    findingsFrom path i l = (l.zipIdx i).flatMap fun e => findingsAt (path ++ [e.2]) e.1 := by
  induction l generalizing i with
  | nil => rfl
  | cons n rest ih => rw [findingsFrom, List.zipIdx_cons, List.flatMap_cons, ih (i + 1)]

/-- The children in slots are numbered by their slots. -/
theorem childPath_slots (path : List Nat) :
    childPath path .whileLoop "condition" = path ++ [0] ∧
      childPath path .whileLoop "child" = path ++ [1] ∧
      childPath path .ifThen "condition" = path ++ [0] ∧
      childPath path .ifThen "then_child" = path ++ [1] ∧
      childPath path .ifThen "else_child" = path ++ [2] :=
  ⟨rfl, rfl, rfl, rfl, rfl⟩

/-- **Step**: what is reported about a tree is what is reported about its root and about the trees
below. -/
theorem findingsAt_perm (path : List Nat) (n : Node ε) :
    (findingsAt path n).Perm
      (reportsAt path n ++ n.numbered.flatMap fun e => findingsAt (path ++ [e.1]) e.2) := by
  cases n with
  | control kind children =>
    rw [findingsAt, findingsFrom_eq, numbered, List.flatMap_map]
    exact .refl _
  | whileLoop condition child =>
    cases condition with
    | none => simp [findingsAt, childPath_slots, reportsAt, reports, numbered]
    | some condition =>
      rw [findingsAt]
      refine List.perm_middle.trans (.of_eq ?_)
      simp [childPath_slots, reportsAt, reports, numbered]
  | ifThen condition thenChild elseChild =>
    cases elseChild with
    | none =>
      rw [findingsAt]
      refine List.perm_middle.trans (.of_eq ?_)
      simp [childPath_slots, reportsAt, reports, numbered]
    | some elseChild =>
      -- The report about the other branch comes last in the tree, but second in the list.
      rw [findingsAt]
      refine List.perm_middle.trans (.cons _ ?_)
      rw [← List.append_assoc]
      refine (List.perm_append_singleton _ _).trans (.of_eq ?_)
      simp [childPath_slots, numbered]
  | _ => exact .of_eq (by simp [findingsAt, reportsAt, reports, numbered])

/-- What is reported about a tree at a path is what is reported about its nodes, wherever they stand
below the path. -/
theorem findingsAt_perm_places (path : List Nat) (n : Node ε) :
    (findingsAt path n).Perm (n.places.flatMap fun e => reportsAt (path ++ e.1) e.2) := by
  induction n using induction generalizing path with
  | step n ih =>
    rw [places_eq, List.flatMap_cons, List.append_nil, List.flatMap_assoc]
    refine (findingsAt_perm path n).trans (.append_left _ (.flatMap_left _ fun e he => ?_))
    have hc : e.2 ∈ n.children := map_snd_numbered n ▸ List.mem_map_of_mem he
    refine (ih e.2 hc (path ++ [e.1])).trans (.of_eq ?_)
    rw [viaChild, List.flatMap_map]
    simp only [List.append_assoc, List.singleton_append]

/-- **Compiling reports what is to be reported about each node**, and nothing else. -/
theorem findings_perm (n : Node ε) :
    n.findings.Perm (n.places.flatMap fun e => reportsAt e.1 e.2) :=
  findingsAt_perm_places [] n

theorem map_key_reportsAt (path : List Nat) (n : Node ε) :
    (reportsAt path n).map Diagnostic.key = n.codes.map (·, path) := by
  rw [reportsAt, List.map_map, ← map_code_reports, List.map_map]
  rfl

/-- The reports about a tree, by code and path, are the codes of its nodes with their places. -/
theorem map_key_findings_perm (n : Node ε) :
    (n.findings.map Diagnostic.key).Perm (n.places.flatMap fun e => e.2.codes.map (·, e.1)) := by
  refine ((findings_perm n).map Diagnostic.key).trans (.of_eq ?_)
  rw [List.map_flatMap]
  exact List.flatMap_congr fun e _ => map_key_reportsAt e.1 e.2

/-- **No report is made twice.** -/
theorem nodup_map_key_findings (n : Node ε) : (n.findings.map Diagnostic.key).Nodup := by
  rw [(map_key_findings_perm n).nodup_iff, List.nodup_flatMap]
  refine ⟨fun e _ => (nodup_codes e.2).map fun _ _ h => (Prod.mk.inj h).1, ?_⟩
  refine (List.pairwise_map.mp (nodup_places n)).imp fun {e e'} hne key hk hk' => ?_
  obtain ⟨_, -, rfl⟩ := List.mem_map.mp hk
  obtain ⟨_, -, h⟩ := List.mem_map.mp hk'
  exact hne (Prod.mk.inj h).2.symm

/-- A report is about the node that its path leads to. -/
theorem at?_of_mem_findings {n : Node ε} {d : Diagnostic} (h : d ∈ n.findings) :
    ∃ m, n.at? d.path = some m ∧ d.finding ∈ m.reports := by
  obtain ⟨⟨path, m⟩, hplace, hd⟩ := List.mem_flatMap.mp ((findings_perm n).mem_iff.mp h)
  obtain ⟨finding, hfinding, rfl⟩ := List.mem_map.mp hd
  exact ⟨m, mem_places_iff.mp hplace, hfinding⟩

/-- **Compiling reports all there is to report, once, and in the right place.** By code and path,
the reports about a tree that is read from a value are those that each of its nodes calls for:
`n.places` are all nodes, each with the path that leads to it. No report is made twice. The path of
a report is an address in the written tree, and what stands there is read as the node that the
report is about. -/
theorem compile_reports (v : Value) :
    ((read v).compile.diagnostics.map Diagnostic.key).Perm
        ((read v).places.flatMap fun e => e.2.codes.map (·, e.1)) ∧
      (read v).places.map Prod.snd = (read v).nodes ∧
      (∀ path m, (path, m) ∈ (read v).places ↔ (read v).at? path = some m) ∧
      ((read v).compile.diagnostics.map Diagnostic.key).Nodup ∧
      ∀ d ∈ (read v).compile.diagnostics, ∃ w, Tree.nodeAt? v (Tree.address d.path) = some w ∧
        (read v).at? d.path = some (read w) ∧ d.finding ∈ (read w).reports := by
  refine ⟨map_key_findings_perm _, map_snd_places _, fun _ _ => mem_places_iff,
    nodup_map_key_findings _, fun d hd => ?_⟩
  obtain ⟨m, hm, hfinding⟩ := at?_of_mem_findings hd
  obtain ⟨w, hw, rfl⟩ := Tree.exists_nodeAt?_of_at? hm
  exact ⟨w, hw, hm, hfinding⟩

end Node

end Bestiary
