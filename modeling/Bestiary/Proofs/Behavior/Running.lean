import Bestiary.Proofs.Behavior.Node
import Mathlib.Data.List.Basic
import Mathlib.Logic.Relation

/-!
# What of a tree the game runs

Compiling does not keep the shape of a tree: a branch gives way to the plan of one of its children,
a loop gets a sequence put below it or not, conditions are left out. What it keeps are the leaves
that run, in the order in which they stand.

* `Node.runningLeaves` are the leaves of a tree that run, `Plan.leaves` are those of a plan.
* `Plan.WellFormed`: a loop repeats a single plan, and nothing stands below a leaf.
* `Node.ChangesDeadPart` relates trees that differ in one part that never runs.
* `Node.compile_runs` says that a tree and its plan run the same, whatever the dead parts are.
-/

namespace Bestiary

/-! ## Plans -/

namespace PlanNode

/-- Whether a node is something that a mob does, and not an arrangement of other plans. -/
def isLeaf : PlanNode → Bool
  | .wait _ => true
  | .spawnNamed .. => true
  | _ => false

/-- How many plans stand below a node, where the kind of the node decides. -/
def arity? : PlanNode → Option Nat
  | .forever => some 1
  | .whileLoop => some 1
  | .wait _ => some 0
  | .spawnNamed .. => some 0
  | .sequence => none
  | .fallback => none

end PlanNode

namespace Plan

mutual

/-- A plan and all plans below it, from the top down and from left to right. -/
def parts : Plan → List Plan
  | .node head children => .node head children :: partsOfAll children

/-- The parts of each plan. -/
def partsOfAll : List Plan → List Plan
  | [] => []
  | p :: plans => parts p ++ partsOfAll plans

end

theorem partsOfAll_eq (plans : List Plan) : partsOfAll plans = plans.flatMap parts := by
  induction plans with
  | nil => rfl
  | cons p plans ih => rw [partsOfAll, List.flatMap_cons, ih]

/-- The leaves of a plan, from left to right. -/
def leaves (p : Plan) : List PlanNode := (p.parts.map head).filter PlanNode.isLeaf

/-- There are as many plans below each node as its kind demands. -/
def WellFormed (p : Plan) : Prop :=
  ∀ q ∈ p.parts, ∀ n, q.head.arity? = some n → q.children.length = n

theorem leaves_node (head : PlanNode) (children : List Plan) :
    leaves (.node head children) = [head].filter PlanNode.isLeaf ++ children.flatMap leaves := by
  unfold leaves
  rw [parts, partsOfAll_eq, List.map_cons, ← List.singleton_append, List.filter_append,
    List.map_flatMap, List.filter_flatMap]
  rfl

theorem wellFormed_node_iff {head : PlanNode} {children : List Plan} :
    WellFormed (.node head children) ↔
      (∀ n, head.arity? = some n → children.length = n) ∧ ∀ c ∈ children, c.WellFormed := by
  unfold WellFormed
  rw [parts, partsOfAll_eq, List.forall_mem_cons]
  refine and_congr_right fun _ => ?_
  simp only [List.mem_flatMap]
  exact ⟨fun h c hc q hq => h q ⟨c, hc, hq⟩, fun h q ⟨c, hc, hq⟩ => h c hc q hq⟩

end Plan

/-! ## Trees -/

theorem Command.orders_eq (commands : List Command) :
    Command.orders commands = commands.map Command.order := by
  induction commands with
  | nil => rfl
  | cons c commands ih => rw [Command.orders, List.map_cons, ih]

namespace Node

variable {ε : Type}

mutual

/-- The leaves of a tree that run, from left to right: those that are reached through the children
of control nodes, the child of a `While` and the `then` child of an `IfThen`. A leaf that the game
cannot carry out is no wait at all. -/
def runningLeaves : Node ε → List PlanNode
  | .control _ children => runningLeavesOfAll children
  | .whileLoop _ child => runningLeaves child
  | .ifThen _ thenChild _ => runningLeaves thenChild
  | .wait seconds => [.wait seconds]
  | .action name commands => [.spawnNamed name (commands.map Command.order)]
  | .trigger _ => [.wait .zero]
  | .unknown .. => [.wait .zero]

/-- The leaves of each tree that run. -/
def runningLeavesOfAll : List (Node ε) → List PlanNode
  | [] => []
  | n :: nodes => runningLeaves n ++ runningLeavesOfAll nodes

end

theorem runningLeavesOfAll_eq (nodes : List (Node ε)) :
    runningLeavesOfAll nodes = nodes.flatMap runningLeaves := by
  induction nodes with
  | nil => rfl
  | cons n nodes ih => rw [runningLeavesOfAll, List.flatMap_cons, ih]

/-- The second tree is the first with one part that never runs changed: another condition or another
`else` branch, and where it need not be there, also one put in or left out. -/
inductive ChangesDeadPart : Node ε → Node ε → Prop
  | loopCondition (condition condition' : Option (Node ε)) (child : Node ε) :
      ChangesDeadPart (.whileLoop condition child) (.whileLoop condition' child)
  | branchCondition (condition condition' thenChild : Node ε) (elseChild : Option (Node ε)) :
      ChangesDeadPart (.ifThen condition thenChild elseChild)
        (.ifThen condition' thenChild elseChild)
  | elseChild (condition thenChild : Node ε) (elseChild elseChild' : Option (Node ε)) :
      ChangesDeadPart (.ifThen condition thenChild elseChild)
        (.ifThen condition thenChild elseChild')
  | underControl (kind : ControlKind) (before : List (Node ε)) {n n' : Node ε}
      (after : List (Node ε)) (h : ChangesDeadPart n n') :
      ChangesDeadPart (.control kind (before ++ n :: after)) (.control kind (before ++ n' :: after))
  | underLoop (condition : Option (Node ε)) {n n' : Node ε} (h : ChangesDeadPart n n') :
      ChangesDeadPart (.whileLoop condition n) (.whileLoop condition n')
  | underThen (condition : Node ε) {n n' : Node ε} (elseChild : Option (Node ε))
      (h : ChangesDeadPart n n') :
      ChangesDeadPart (.ifThen condition n elseChild) (.ifThen condition n' elseChild)

/-! ## Compiling -/

/-- A single plan to repeat has the leaves of the plans that it is made of. -/
theorem leaves_body (plans : List Plan) : (body plans).leaves = plans.flatMap Plan.leaves := by
  match plans with
  | [] => rfl
  | [p] => simp [body]
  | p :: q :: plans => rw [body, Plan.leaves_node] <;> simp [PlanNode.isLeaf]

theorem wellFormed_body {plans : List Plan} (h : ∀ p ∈ plans, p.WellFormed) :
    (body plans).WellFormed := by
  match plans with
  | [p] => exact h p (List.mem_singleton.mpr rfl)
  | [] => exact Plan.wellFormed_node_iff.mpr ⟨by simp [PlanNode.arity?], h⟩
  | p :: q :: plans => exact Plan.wellFormed_node_iff.mpr ⟨by simp [PlanNode.arity?], h⟩

/-- **The leaves of the plan are the leaves that run.** -/
theorem leaves_plan (n : Node ε) : n.plan.leaves = n.runningLeaves := by
  induction n using induction with
  | step n ih =>
    cases n with
    | control kind children =>
      have hchildren : (plans children).flatMap Plan.leaves = children.flatMap runningLeaves := by
        rw [plans_eq, List.flatMap_map]
        exact List.flatMap_congr ih
      rw [runningLeaves, runningLeavesOfAll_eq, ← hchildren]
      cases kind with
      | forever => simp [plan, Plan.leaves_node, leaves_body, PlanNode.isLeaf]
      | _ => simp [plan, Plan.leaves_node, PlanNode.isLeaf]
    | whileLoop condition child =>
      rw [runningLeaves, ← ih child (by simp [children]), plan, Plan.leaves_node]
      simp [PlanNode.isLeaf]
    | ifThen condition thenChild elseChild =>
      rw [runningLeaves, ← ih thenChild (by simp [children]), plan]
    | action name commands => rw [runningLeaves, plan, Command.orders_eq]; rfl
    | _ => rfl

/-- **The plan of a tree is well-formed.** -/
theorem wellFormed_plan (n : Node ε) : n.plan.WellFormed := by
  have hleaf : ∀ head : PlanNode, head.isLeaf = true → (Plan.node head []).WellFormed := by
    intro head hhead
    refine Plan.wellFormed_node_iff.mpr ⟨fun n hn => ?_, fun c hc => absurd hc List.not_mem_nil⟩
    cases head <;> simp_all [PlanNode.isLeaf, PlanNode.arity?]
  induction n using induction with
  | step n ih =>
    cases n with
    | control kind children =>
      have hchildren : ∀ p ∈ plans children, p.WellFormed := by
        rw [plans_eq, List.forall_mem_map]
        exact ih
      cases kind with
      | forever =>
        refine Plan.wellFormed_node_iff.mpr ⟨by simp [PlanNode.arity?], ?_⟩
        rw [List.forall_mem_singleton]
        exact wellFormed_body hchildren
      | _ => exact Plan.wellFormed_node_iff.mpr ⟨by simp [PlanNode.arity?], hchildren⟩
    | whileLoop condition child =>
      refine Plan.wellFormed_node_iff.mpr ⟨by simp [PlanNode.arity?], ?_⟩
      rw [List.forall_mem_singleton]
      exact ih child (by simp [children])
    | ifThen condition thenChild elseChild => exact ih thenChild (by simp [children])
    | _ => exact hleaf _ rfl

/-- **A part that never runs does not matter to the plan.** -/
theorem plan_of_changesDeadPart {n n' : Node ε} (h : ChangesDeadPart n n') : n'.plan = n.plan := by
  induction h with
  | loopCondition condition condition' child => rfl
  | branchCondition condition condition' thenChild elseChild => rfl
  | elseChild condition thenChild elseChild elseChild' => rfl
  | underControl kind before after _ ih =>
    have hplans : ∀ m : Node ε, plans (before ++ m :: after) =
        plans before ++ m.plan :: plans after := fun m => by simp [plans_eq]
    cases kind <;> simp only [plan, hplans, ih]
  | underLoop condition _ ih => rw [plan, plan, ih]
  | underThen condition elseChild _ ih => rw [plan, plan, ih]

/-- **Compiling keeps what runs, and nothing else matters to it.** The leaves of the compiled plan
are the leaves of the tree that run, in their order. Loops of the plan repeat a single plan, and
nothing stands below its leaves. No change to parts that never run makes a difference, however many
there are. -/
theorem compile_runs (n : Node ε) :
    n.compile.plan.leaves = n.runningLeaves ∧
      n.compile.plan.WellFormed ∧
      ∀ n', Relation.ReflTransGen ChangesDeadPart n n' → n'.compile.plan = n.compile.plan := by
  refine ⟨leaves_plan n, wellFormed_plan n, fun n' h => ?_⟩
  induction h with
  | refl => rfl
  | tail _ hstep ih => exact (plan_of_changesDeadPart hstep).trans ih

/-- A moth that rests at dusk goes on resting when it loops on a condition and flees otherwise. -/
theorem compile_runs_moth :
    let moth : Node Empty := .whileLoop none (.ifThen (.trigger "dusk") (.wait .zero) none)
    let wary : Node Empty := .whileLoop (some (.trigger "lamp"))
      (.ifThen (.trigger "dusk") (.wait .zero) (some (.action "flee" [])))
    Relation.ReflTransGen ChangesDeadPart moth wary ∧ wary.compile.plan = moth.compile.plan := by
  intro moth wary
  have h : Relation.ReflTransGen ChangesDeadPart moth wary :=
    .tail (.single (.loopCondition none (some (.trigger "lamp")) _))
      (.underLoop _ (.elseChild _ _ none (some (.action "flee" []))))
  exact ⟨h, (compile_runs moth).2.2 wary h⟩

end Node

end Bestiary
