import Bestiary.Behavior.Node
import Bestiary.Behavior.Plan

/-!
# From trees to plans

A behavior tree is compiled to a plan. What the game cannot carry out yet (conditions, triggers,
nodes that could not be read) compiles to something harmless and is reported, with the path of the
node it concerns.

* `Node.plan` is the plan of a tree; `Node.findings` are the reports, in tree order.
* `Node.compile` gives both.
-/

namespace Bestiary

/-- What compiling has to report about a node. -/
inductive Finding where
  | unknownNode (declared : Option String) (reason : String)
  | loopConditionIgnored
  | branchConditionIgnored
  | elseIgnored
  | triggerIgnored (event : String)

/-- The code of a finding. -/
def Finding.code : Finding → String
  | .unknownNode .. => "unknown-node"
  | .loopConditionIgnored => "condition-ignored"
  | .branchConditionIgnored => "condition-ignored"
  | .elseIgnored => "else-ignored"
  | .triggerIgnored _ => "trigger-unimplemented"

/-- A finding about the node at a path. -/
structure Diagnostic where
  finding : Finding
  path : List Nat

/-- A path as messages name it. -/
def pathText (path : List Nat) : String :=
  if path.isEmpty then "root" else ".".intercalate (path.map Nat.repr)

/-- The wording of a diagnostic. -/
def Diagnostic.message (d : Diagnostic) : String :=
  let place := pathText d.path
  match d.finding with
  | .unknownNode declared reason =>
    let kind := match declared with
      | some name => s!" of type \"{name}\""
      | none => ""
    s!"Unreadable node{kind} at {place}: {reason}; compiled as Wait 0s"
  | .loopConditionIgnored =>
    s!"While at {place}: condition is not evaluated; the child repeats unconditionally"
  | .branchConditionIgnored =>
    s!"IfThen at {place}: condition is not evaluated; then_child always runs"
  | .elseIgnored => s!"IfThen at {place}: else_child never runs"
  | .triggerIgnored event =>
    s!"Trigger \"{event}\" at {place} is not implemented; compiled as Wait 0s"

mutual

/-- The order of a command. -/
def Command.order : Command → Order
  | .simple a => .simple a
  | .moveTo x y => .moveTo ⟨x, y⟩
  | .spawn what keys => .spawn what keys
  | .doForTime seconds => .doForTime seconds
  | .transmit mobType commands => .transmit mobType (Command.orders commands)
  | .rotateJoints keys => .rotateJoints keys

/-- The order of each command. -/
def Command.orders : List Command → List Order
  | [] => []
  | c :: commands => Command.order c :: Command.orders commands

end

namespace Node

variable {ε : Type}

/-- The plan that does nothing. -/
def idle : Plan := .node (.wait .zero) []

/-- The single plan that is repeated: the only child itself, or the children in sequence. -/
def body : List Plan → Plan
  | [p] => p
  | plans => .node .sequence plans

mutual

/-- The plan of a tree. -/
def plan : Node ε → Plan
  | .control .forever children => .node .forever [body (plans children)]
  | .control .sequence children => .node .sequence (plans children)
  | .control .fallback children => .node .fallback (plans children)
  | .whileLoop _ child => .node .whileLoop [plan child]
  | .ifThen _ thenChild _ => plan thenChild
  | .wait seconds => .node (.wait seconds) []
  | .action name commands => .node (.spawnNamed name (Command.orders commands)) []
  | .trigger _ => idle
  | .unknown .. => idle

/-- The plan of each tree. -/
def plans : List (Node ε) → List Plan
  | [] => []
  | n :: nodes => plan n :: plans nodes

end

/-- The path of the child in the slot for a field. -/
def childPath (path : List Nat) (kind : NodeKind) (field : String) : List Nat :=
  path ++ (kind.slotIndex? field).toList

mutual

/-- What compiling reports about a tree that stands at `path`. -/
def findingsAt (path : List Nat) : Node ε → List Diagnostic
  | .control _ children => findingsFrom path 0 children
  | .whileLoop none child => findingsAt (childPath path .whileLoop "child") child
  | .whileLoop (some condition) child =>
    findingsAt (childPath path .whileLoop "condition") condition ++ ⟨.loopConditionIgnored, path⟩ ::
      findingsAt (childPath path .whileLoop "child") child
  | .ifThen condition thenChild none =>
    findingsAt (childPath path .ifThen "condition") condition ++ ⟨.branchConditionIgnored, path⟩ ::
      findingsAt (childPath path .ifThen "then_child") thenChild
  | .ifThen condition thenChild (some elseChild) =>
    findingsAt (childPath path .ifThen "condition") condition ++ ⟨.branchConditionIgnored, path⟩ ::
      (findingsAt (childPath path .ifThen "then_child") thenChild ++
        findingsAt (childPath path .ifThen "else_child") elseChild ++ [⟨.elseIgnored, path⟩])
  | .wait _ => []
  | .action .. => []
  | .trigger event => [⟨.triggerIgnored event, path⟩]
  | .unknown declared _ reason => [⟨.unknownNode declared reason.text, path⟩]

/-- What compiling reports about the children from position `i` on. -/
def findingsFrom (path : List Nat) (i : Nat) : List (Node ε) → List Diagnostic
  | [] => []
  | n :: nodes => findingsAt (path ++ [i]) n ++ findingsFrom path (i + 1) nodes

end

/-- What compiling reports about a tree. -/
def findings (n : Node ε) : List Diagnostic := findingsAt [] n

end Node

/-- A plan and what was reported on the way to it. -/
structure Compiled where
  plan : Plan
  diagnostics : List Diagnostic

/-- The plan of a tree, with the reports. -/
def Node.compile {ε : Type} (n : Node ε) : Compiled := ⟨n.plan, n.findings⟩

end Bestiary
