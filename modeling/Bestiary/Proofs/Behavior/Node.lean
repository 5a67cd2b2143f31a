import Bestiary.Behavior.Compile
import Mathlib.Algebra.Order.Ring.Nat

/-!
# The nodes of a tree

* `Node.children` are the nodes right below a node, `Node.nodes` all nodes of a tree.
* `Node.induction` proves a statement of all nodes from that of the children.
* `countP_findings` says that compiling reports every unknown node once.
-/

namespace Bestiary.Node

variable {ε : Type}

/-- The nodes right below a node, in the order of the layout. -/
def children : Node ε → List (Node ε)
  | .control _ children => children
  | .whileLoop condition child => condition.toList ++ [child]
  | .ifThen condition thenChild elseChild => condition :: thenChild :: elseChild.toList
  | .wait _ => []
  | .action .. => []
  | .trigger _ => []
  | .unknown .. => []

/-- Whether a node could not be read. -/
def isUnknown : Node ε → Bool
  | .unknown .. => true
  | _ => false

/-- The type that a node declares, if it could not be read and declares one. -/
def declared? : Node ε → Option String
  | .unknown declared _ _ => declared
  | _ => none

mutual

/-- All nodes of a tree, a node before what is below it. -/
def nodes : Node ε → List (Node ε)
  | .control kind children => .control kind children :: nodesOfAll children
  | .whileLoop none child => .whileLoop none child :: nodes child
  | .whileLoop (some condition) child =>
    .whileLoop (some condition) child :: (nodes condition ++ nodes child)
  | .ifThen condition thenChild none =>
    .ifThen condition thenChild none :: (nodes condition ++ nodes thenChild)
  | .ifThen condition thenChild (some elseChild) =>
    .ifThen condition thenChild (some elseChild) ::
      (nodes condition ++ (nodes thenChild ++ nodes elseChild))
  | .wait seconds => [.wait seconds]
  | .action name commands => [.action name commands]
  | .trigger event => [.trigger event]
  | .unknown declared raw reason => [.unknown declared raw reason]

/-- All nodes of each tree. -/
def nodesOfAll : List (Node ε) → List (Node ε)
  | [] => []
  | n :: rest => nodes n ++ nodesOfAll rest

end

theorem nodesOfAll_eq (l : List (Node ε)) : nodesOfAll l = l.flatMap nodes := by
  induction l with
  | nil => rfl
  | cons n rest ih => rw [nodesOfAll, List.flatMap_cons, ih]

theorem plans_eq (l : List (Node ε)) : plans l = l.map plan := by
  induction l with
  | nil => rfl
  | cons n rest ih => rw [plans, List.map_cons, ih]

/-- The nodes of a tree are its root and those of the trees below. -/
theorem nodes_eq (n : Node ε) : n.nodes = n :: n.children.flatMap nodes := by
  cases n with
  | control kind children => rw [nodes, nodesOfAll_eq, Node.children]
  | whileLoop condition child => cases condition <;> simp [nodes, children]
  | ifThen condition thenChild elseChild => cases elseChild <;> simp [nodes, children]
  | _ => rfl

/-- **Induction on trees**: what holds of a node if it holds of its children holds of all nodes. -/
@[elab_as_elim]
theorem induction {motive : Node ε → Prop}
    (step : ∀ n, (∀ c ∈ n.children, motive c) → motive n) (n : Node ε) : motive n := by
  refine @Node.rec ε motive (fun l => ∀ c ∈ l, motive c) (fun o => ∀ c ∈ o.toList, motive c)
    ?_ ?_ ?_ ?_ ?_ ?_ ?_ ?_ ?_ ?_ ?_ n
  · intro kind children h
    exact step _ h
  · intro condition child hcondition hchild
    refine step _ fun c hc => ?_
    rcases List.mem_append.mp hc with hc | hc
    · exact hcondition c hc
    · rw [List.mem_singleton.mp hc]
      exact hchild
  · intro condition thenChild elseChild hcondition hthen helse
    refine step _ fun c hc => ?_
    rcases List.mem_cons.mp hc with rfl | hc
    · exact hcondition
    · rcases List.mem_cons.mp hc with rfl | hc
      · exact hthen
      · exact helse c hc
  · intro seconds
    exact step _ fun c hc => absurd hc List.not_mem_nil
  · intro name commands
    exact step _ fun c hc => absurd hc List.not_mem_nil
  · intro event
    exact step _ fun c hc => absurd hc List.not_mem_nil
  · intro declared raw reason
    exact step _ fun c hc => absurd hc List.not_mem_nil
  · intro c hc
    exact absurd hc List.not_mem_nil
  · intro n l hn hl c hc
    rcases List.mem_cons.mp hc with rfl | hc
    · exact hn
    · exact hl c hc
  · intro c hc
    exact absurd hc List.not_mem_nil
  · intro n hn c hc
    obtain rfl := Option.some.inj (Option.mem_toList.mp hc)
    exact hn

/-! ## Unknown nodes -/

/-- How many nodes of a tree could not be read. -/
def unknownCount (n : Node ε) : Nat := n.nodes.countP isUnknown

theorem unknownCount_eq (n : Node ε) :
    n.unknownCount = (if n.isUnknown then 1 else 0) + (n.children.map unknownCount).sum := by
  unfold unknownCount
  rw [nodes_eq, List.countP_cons, List.countP_flatMap, Nat.add_comm]
  rfl

/-- Whether a report is about a node that could not be read. -/
def reportsUnknown (d : Diagnostic) : Bool := d.finding.code = "unknown-node"

theorem countP_findingsFrom (path : List Nat) (i : Nat) (l : List (Node ε))
    (h : ∀ n ∈ l, ∀ path, (findingsAt path n).countP reportsUnknown = n.unknownCount) :
    (findingsFrom path i l).countP reportsUnknown = (l.map unknownCount).sum := by
  induction l generalizing i with
  | nil => rfl
  | cons n rest ih =>
    rw [List.forall_mem_cons] at h
    rw [findingsFrom, List.countP_append, h.1, ih (i + 1) h.2, List.map_cons, List.sum_cons]

/-- Compiling reports every unknown node once, wherever the tree stands. -/
theorem countP_findingsAt (path : List Nat) (n : Node ε) :
    (findingsAt path n).countP reportsUnknown = n.unknownCount := by
  induction n using induction generalizing path with
  | step n ih =>
    rw [unknownCount_eq]
    cases n with
    | control kind children =>
      rw [findingsAt, countP_findingsFrom path 0 children fun n hn path => ih n hn path]
      simp [isUnknown, Node.children]
    | whileLoop condition child =>
      cases condition with
      | none =>
        rw [findingsAt, ih child (by simp [children])]
        simp [isUnknown, children]
      | some condition =>
        rw [findingsAt, List.countP_append, List.countP_cons, ih condition (by simp [children]),
          ih child (by simp [children])]
        simp [isUnknown, children, reportsUnknown, Finding.code]
    | ifThen condition thenChild elseChild =>
      cases elseChild with
      | none =>
        rw [findingsAt, List.countP_append, List.countP_cons, ih condition (by simp [children]),
          ih thenChild (by simp [children])]
        simp [isUnknown, children, reportsUnknown, Finding.code]
      | some elseChild =>
        rw [findingsAt, List.countP_append, List.countP_cons, List.countP_append,
          List.countP_append, ih condition (by simp [children]), ih thenChild (by simp [children]),
          ih elseChild (by simp [children])]
        simp [isUnknown, children, reportsUnknown, Finding.code]
    | unknown declared raw reason =>
      simp [findingsAt, isUnknown, children, reportsUnknown, Finding.code]
    | trigger event =>
      simp [findingsAt, isUnknown, children, reportsUnknown, Finding.code]
    | _ => rfl

/-- **Compiling reports every unknown node once.** -/
theorem countP_findings (n : Node ε) : n.findings.countP reportsUnknown = n.unknownCount :=
  countP_findingsAt [] n

theorem unknownCount_eq_zero_iff {n : Node ε} :
    n.unknownCount = 0 ↔ ∀ u ∈ n.nodes, u.isUnknown = false := by
  unfold unknownCount
  rw [List.countP_eq_zero]
  simp

end Bestiary.Node
