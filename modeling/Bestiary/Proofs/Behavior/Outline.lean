import Bestiary.Behavior.Plan
import Bestiary.Proofs.Number.Digits
import Bestiary.Proofs.Text.Split
import Mathlib.Data.List.Forall2

/-!
# Reading a plan off its outline

An outline has a line for each node of a plan, in the order in which one walks through the plan, and
each line is indented by the level of its node. As long as no name, key or type in the plan brings a
line feed of its own, levels and kinds can be read off the lines again, and they determine the shape
of the plan.

* `Plan.places` lists the nodes of a plan with their paths (`mem_places_iff`, `pairwise_places`);
  `Plan.labels` are the texts in a plan that are not fixed.
* `Plan.split_outline`: the lines of the outline are those of the nodes.
* `Plan.level_eq_of_line_eq`: a line tells the level and the kind of its node.
* `Plan.readsBack`: levels and kinds in this order determine the shape.
* `Plan.outline_faithful` puts all this together.
-/

namespace Bestiary

namespace Text

/-- A text on a single line. -/
def IsLine (s : String) : Prop := '\n' ∉ s.toList

instance : DecidablePred IsLine := fun s => inferInstanceAs (Decidable ('\n' ∉ s.toList))

/-- How many blanks a text starts with. -/
def indentation (s : String) : Nat := (s.toList.takeWhile (· = ' ')).length

@[simp] theorem isLine_append {s t : String} : IsLine (s ++ t) ↔ IsLine s ∧ IsLine t := by
  simp [IsLine]

theorem isLine_intercalate {sep : String} {parts : List String} (hsep : IsLine sep)
    (h : ∀ part ∈ parts, IsLine part) : IsLine (sep.intercalate parts) := by
  induction parts with
  | nil => simp [IsLine]
  | cons part parts ih =>
    rw [List.forall_mem_cons] at h
    cases parts with
    | nil => simpa using h.1
    | cons next parts =>
      rw [String.intercalate_cons_cons]
      simpa [h.1, hsep] using ih h.2

end Text

open Text (IsLine)

/-! ## Texts of plans -/

theorem Number.isLine_text (x : Number) : IsLine x.text := by
  have hdigits : '\n' ∉ significant x.shortest := by
    obtain ⟨k, hk⟩ := exists_eq_significant_append x.shortest
    intro h
    exact absurd (Text.isDigit_of_mem_toDigits (hk ▸ List.mem_append_left _ h)) (by decide)
  have hlayout := not_mem_layout (by decide) (by decide) hdigits x.shortest.place
  unfold text IsLine
  split_ifs <;> simp [hlayout]

namespace Order

theorem text_simple (a : SimpleAction) : (simple a).text = a.name := rfl

theorem text_moveTo (p : Point) :
    (moveTo p).text = "MoveTo(" ++ p.x.text ++ ", " ++ p.y.text ++ ")" := rfl

theorem text_spawn (what : Spawned) (keys : Option (List String)) :
    (spawn what keys).text =
      what.name ++ "(" ++ (keys.map (", ".intercalate ·)).getD "*" ++ ")" := by
  cases keys <;> rfl

theorem text_doForTime (seconds : Number) :
    (doForTime seconds).text = "DoForTime(" ++ seconds.text ++ "s)" := rfl

theorem text_transmit (mobType : String) (orders : List Order) :
    (transmit mobType orders).text =
      "TransmitMobBehavior(" ++ mobType ++ ": [" ++ ", ".intercalate (texts orders) ++ "])" := rfl

theorem text_rotateJoints (keys : List String) :
    (rotateJoints keys).text = "RotateJointsClockwise(" ++ ", ".intercalate keys ++ ")" := rfl

mutual

/-- The texts in an order that are not fixed: keys and types of mobs. -/
def labels : Order → List String
  | .simple _ => []
  | .moveTo _ => []
  | .spawn _ keys => keys.getD []
  | .doForTime _ => []
  | .transmit mobType orders => mobType :: labelsOfAll orders
  | .rotateJoints keys => keys

/-- The texts in each order that are not fixed. -/
def labelsOfAll : List Order → List String
  | [] => []
  | o :: orders => labels o ++ labelsOfAll orders

end

/-- Texts on single lines, with commas between them. -/
theorem isLine_listed {parts : List String} (h : ∀ part ∈ parts, IsLine part) :
    IsLine (", ".intercalate parts) :=
  Text.isLine_intercalate (by decide) h

mutual

/-- **An order stands on a single line** if its keys and types do. -/
theorem isLine_text : ∀ o : Order, (∀ label ∈ o.labels, IsLine label) → IsLine o.text
  | .simple a, _ => by
    rw [text_simple]
    cases a <;> decide
  | .moveTo p, _ => by
    simp only [text_moveTo, Text.isLine_append, Number.isLine_text, and_true]
    decide
  | .spawn what keys, h => by
    have hwhat : IsLine what.name := by cases what <;> decide
    have hkeys : IsLine ((keys.map (", ".intercalate ·)).getD "*") := by
      cases keys with
      | none => decide
      | some keys => exact isLine_listed h
    simp only [text_spawn, Text.isLine_append, hwhat, hkeys, and_true, true_and]
    decide
  | .doForTime seconds, _ => by
    simp only [text_doForTime, Text.isLine_append, Number.isLine_text, and_true]
    decide
  | .transmit mobType orders, h => by
    rw [labels, List.forall_mem_cons] at h
    simp only [text_transmit, Text.isLine_append, h.1, isLine_listed (isLine_texts orders h.2),
      and_true]
    decide
  | .rotateJoints keys, h => by
    rw [labels] at h
    simp only [text_rotateJoints, Text.isLine_append, isLine_listed h, and_true]
    decide

/-- So do the orders of a list. -/
theorem isLine_texts : ∀ orders : List Order, (∀ label ∈ labelsOfAll orders, IsLine label) →
    ∀ s ∈ texts orders, IsLine s
  | [], _ => fun _ hs => absurd hs List.not_mem_nil
  | o :: orders, h => by
    rw [labelsOfAll, List.forall_mem_append] at h
    rw [texts, List.forall_mem_cons]
    exact ⟨isLine_text o h.1, isLine_texts orders h.2⟩

end

end Order

namespace PlanNode

/-- The texts in a node that are not fixed: the name of an action, and those in its orders. -/
def labels : PlanNode → List String
  | .spawnNamed name orders => name :: Order.labelsOfAll orders
  | _ => []

theorem text_wait (seconds : Number) : (wait seconds).text = "Wait " ++ seconds.text ++ "s" := rfl

theorem text_spawnNamed (name : String) (orders : List Order) :
    (spawnNamed name orders).text =
      "SpawnNamed \"" ++ name ++ "\" [" ++ ", ".intercalate (Order.texts orders) ++ "]" := rfl

/-- **A node stands on a single line** if its texts do. -/
theorem isLine_text (n : PlanNode) (h : ∀ label ∈ n.labels, IsLine label) : IsLine n.text := by
  cases n with
  | wait seconds =>
    simp only [text_wait, Text.isLine_append, Number.isLine_text, and_true]
    decide
  | spawnNamed name orders =>
    rw [labels, List.forall_mem_cons] at h
    simp only [text_spawnNamed, Text.isLine_append, h.1,
      Order.isLine_listed (Order.isLine_texts orders h.2), and_true]
    decide
  | _ => decide

/-- The names of the kinds of nodes. -/
def kindNames : List String := ["Forever", "Sequence", "Fallback", "While", "Wait", "SpawnNamed"]

theorem kindName_mem (n : PlanNode) : n.kindName ∈ kindNames := by
  cases n <;> simp [kindName, kindNames]

/-- A node's text starts with the first two characters of its kind. -/
theorem take_toList_text (n : PlanNode) : n.text.toList.take 2 = n.kindName.toList.take 2 := by
  cases n with
  | wait seconds => simp [text_wait, kindName]
  | spawnNamed name orders => simp [text_spawnNamed, kindName]
  | _ => rfl

/-- They tell the kind. -/
theorem kindName_eq_of_text_eq {n m : PlanNode} (h : n.text = m.text) :
    n.kindName = m.kindName := by
  have hstart : ∀ a ∈ kindNames, ∀ b ∈ kindNames, a.toList.take 2 = b.toList.take 2 → a = b := by
    decide
  refine hstart _ n.kindName_mem _ m.kindName_mem ?_
  rw [← take_toList_text, ← take_toList_text, h]

/-- No text of a node starts with a blank. -/
theorem takeWhile_toList_text (n : PlanNode) : n.text.toList.takeWhile (· = ' ') = [] := by
  cases n with
  | wait seconds => simp [text_wait]
  | spawnNamed name orders => simp [text_spawnNamed]
  | _ => rfl

end PlanNode

/-! ## Lines of an outline -/

namespace Plan

variable {p q : Plan} {n m : PlanNode} {path : List Nat}

/-- The node at a path. -/
def at? : Plan → List Nat → Option PlanNode
  | p, [] => some p.head
  | p, i :: path => p.children[i]?.bind (at? · path)

/-- Nodes that stand below a position, as they are placed one step up. -/
def viaChild (i : Nat) (below : List (List Nat × PlanNode)) : List (List Nat × PlanNode) :=
  below.map fun e => (i :: e.1, e.2)

mutual

/-- Every node of a plan with its path, a node before what is below it. -/
def places : Plan → List (List Nat × PlanNode)
  | .node head children => ([], head) :: placesFrom 0 children

/-- Every node of the plans at the positions from `i` on. -/
def placesFrom (i : Nat) : List Plan → List (List Nat × PlanNode)
  | [] => []
  | p :: plans => viaChild i (places p) ++ placesFrom (i + 1) plans

end

/-- The texts in a plan that are not fixed. -/
def labels (p : Plan) : List String := p.places.flatMap fun e => e.2.labels

/-- **Induction on plans**: what holds of a plan if it holds of the plans below, holds of all. -/
@[elab_as_elim]
theorem induction {motive : Plan → Prop}
    (node : ∀ head children, (∀ c ∈ children, motive c) → motive (.node head children))
    (p : Plan) : motive p := by
  refine @Plan.rec motive (fun plans => ∀ c ∈ plans, motive c) node ?_ ?_ p
  · exact fun c hc => absurd hc List.not_mem_nil
  · exact fun p plans hp hplans => List.forall_mem_cons.mpr ⟨hp, hplans⟩

theorem placesFrom_eq (i : Nat) (plans : List Plan) :
    placesFrom i plans = (plans.zipIdx i).flatMap fun e => viaChild e.2 e.1.places := by
  induction plans generalizing i with
  | nil => rfl
  | cons p plans ih => rw [placesFrom, List.zipIdx_cons, List.flatMap_cons, ih]

/-- The places of a plan are its top and those of the plans below, by position. -/
theorem places_node (head : PlanNode) (children : List Plan) :
    (node head children).places =
      ([], head) :: children.zipIdx.flatMap fun e => viaChild e.2 e.1.places := by
  rw [places, placesFrom_eq]

/-- **A node stands in a place iff the path leads to it.** -/
theorem mem_places_iff : (path, n) ∈ p.places ↔ p.at? path = some n := by
  induction path generalizing p with
  | nil =>
    obtain ⟨head, children⟩ := p
    simp [places_node, at?, Plan.head, viaChild, eq_comm]
  | cons i path ih =>
    obtain ⟨head, children⟩ := p
    rw [places_node, at?, Option.bind_eq_some_iff]
    simp only [List.mem_cons, Prod.mk.injEq, List.cons_ne_nil, false_and, false_or,
      List.mem_flatMap, viaChild, List.mem_map]
    constructor
    · rintro ⟨⟨c, j⟩, hc, ⟨below, u⟩, hu, ⟨rfl, rfl⟩, rfl⟩
      exact ⟨c, List.mk_mem_zipIdx_iff_getElem?.mp hc, ih.mp hu⟩
    · rintro ⟨c, hc, hn⟩
      exact ⟨(c, i), List.mk_mem_zipIdx_iff_getElem?.mpr hc, (path, n), ih.mpr hn, rfl, rfl⟩

/-- **The paths ascend**, part by part, a path before those that go on from it. -/
theorem pairwise_places (p : Plan) : p.places.Pairwise fun e f => e.1 < f.1 := by
  induction p using induction with
  | node head children ih =>
    rw [places_node, List.pairwise_cons, List.pairwise_flatMap]
    refine ⟨fun e he => ?_, fun e he => ?_, ?_⟩
    · obtain ⟨c, -, he⟩ := List.mem_flatMap.mp he
      obtain ⟨f, -, rfl⟩ := List.mem_map.mp he
      exact List.nil_lt_cons _ _
    · rw [viaChild, List.pairwise_map]
      exact (ih e.1 (List.fst_mem_of_mem_zipIdx he)).imp fun h =>
        List.cons_lt_cons_iff.mpr (.inr ⟨rfl, h⟩)
    · have hpositions : (children.zipIdx.map Prod.snd).Pairwise (· < ·) := by
        rw [List.zipIdx_map_snd]
        exact List.pairwise_lt_range'
      refine (List.pairwise_map.mp hpositions).imp fun hlt e he f hf => ?_
      obtain ⟨e, -, rfl⟩ := List.mem_map.mp he
      obtain ⟨f, -, rfl⟩ := List.mem_map.mp hf
      exact List.cons_lt_cons_iff.mpr (.inl hlt)

/-- The line of a node at a level. -/
def lineOf (level : Nat) (n : PlanNode) : String := indent level ++ n.text

/-- **The outline goes from place to place**, and the level of a line is the length of the path. -/
theorem linesAt_eq (depth : Nat) (p : Plan) :
    linesAt depth p = p.places.map fun e => lineOf (depth + e.1.length) e.2 := by
  induction p using induction generalizing depth with
  | node head children ih =>
    have hchildren : ∀ i, linesOfAll (depth + 1) children =
        (placesFrom i children).map fun e => lineOf (depth + e.1.length) e.2 := by
      induction children with
      | nil => exact fun _ => rfl
      | cons c children ihchildren =>
        intro i
        rw [List.forall_mem_cons] at ih
        rw [linesOfAll, placesFrom, List.map_append, ih.1, ← ihchildren ih.2, viaChild,
          List.map_map]
        simp [Function.comp_def, Nat.add_assoc, Nat.add_comm 1]
    rw [linesAt, places, List.map_cons, ← hchildren]
    rfl

/-- The texts in a plan stand on single lines each. -/
def LabelsAreLines (p : Plan) : Prop := ∀ label ∈ p.labels, IsLine label

instance : DecidablePred LabelsAreLines := fun p =>
  inferInstanceAs (Decidable (∀ label ∈ p.labels, IsLine label))

theorem LabelsAreLines.isLine_text (hp : p.LabelsAreLines) {e : List Nat × PlanNode}
    (he : e ∈ p.places) : IsLine e.2.text :=
  e.2.isLine_text fun label hlabel => hp label (List.mem_flatMap.mpr ⟨e, he, hlabel⟩)

theorem isLine_lineOf (level : Nat) (h : IsLine n.text) : IsLine (lineOf level n) := by
  rw [lineOf, Text.isLine_append]
  exact ⟨by simp [IsLine, indent], h⟩

/-- **The lines of the outline are those of the nodes.** -/
theorem split_outline (hp : p.LabelsAreLines) :
    Text.split '\n' p.outline = p.places.map fun e => lineOf e.1.length e.2 := by
  have hlines : linesAt 0 p = p.places.map fun e => lineOf e.1.length e.2 := by
    simpa using linesAt_eq 0 p
  have houtline : p.outline = (String.singleton '\n').intercalate (linesAt 0 p) := rfl
  rw [houtline, hlines, Text.split_intercalate]
  · obtain ⟨head, children⟩ := p
    simp [places]
  · rw [List.forall_mem_map]
    exact fun e he => isLine_lineOf _ (hp.isLine_text he)

/-! ## What a line tells -/

/-- A line is indented by two blanks for each level. -/
theorem indentation_lineOf (level : Nat) (n : PlanNode) :
    Text.indentation (lineOf level n) = 2 * level := by
  rw [Text.indentation, lineOf, String.toList_append, indent, String.toList_ofList,
    List.takeWhile_append_of_pos (by simp), n.takeWhile_toList_text, List.append_nil,
    List.length_replicate]

/-- **A line tells the level and the kind of its node.** -/
theorem level_eq_of_line_eq {level level' : Nat} (h : lineOf level n = lineOf level' m) :
    level = level' ∧ n.kindName = m.kindName := by
  have hlevel : level = level' := by
    have hindentation := congrArg Text.indentation h
    rw [indentation_lineOf, indentation_lineOf] at hindentation
    omega
  subst hlevel
  exact ⟨rfl, PlanNode.kindName_eq_of_text_eq (by simpa [lineOf] using h)⟩

/-! ## From levels to shapes -/

/-- The level and the kind of each node of a plan that stands at the given level. -/
def levelsAt (level : Nat) (p : Plan) : List (Nat × String) :=
  p.places.map fun e => (level + e.1.length, e.2.kindName)

theorem levelsAt_node (level : Nat) (head : PlanNode) (children : List Plan) :
    levelsAt level (.node head children) =
      (level, head.kindName) :: children.flatMap (levelsAt (level + 1)) := by
  have hchildren : ∀ i, (children.zipIdx i).flatMap (fun e =>
      (viaChild e.2 e.1.places).map fun e => (level + e.1.length, e.2.kindName)) =
        children.flatMap (levelsAt (level + 1)) := by
    induction children with
    | nil => exact fun _ => rfl
    | cons c children ih =>
      intro i
      rw [List.zipIdx_cons, List.flatMap_cons, List.flatMap_cons, ih, viaChild, List.map_map,
        levelsAt]
      simp [Function.comp_def, Nat.add_assoc, Nat.add_comm 1]
  rw [levelsAt, places_node, List.map_cons, List.map_flatMap, hchildren]
  rfl

/-- What a list starts with is above a level, if it starts with anything. -/
def StartsAbove (level : Nat) (rest : List (Nat × String)) : Prop :=
  ∀ e ∈ rest.head?, e.1 < level

/-- The kind of the node at a path. -/
def kindAt? (p : Plan) (path : List Nat) : Option String := (p.at? path).map PlanNode.kindName

theorem kindAt?_cons (p : Plan) (i : Nat) (path : List Nat) :
    p.kindAt? (i :: path) = p.children[i]?.bind (kindAt? · path) := by
  rw [kindAt?, at?, Option.map_bind]
  rfl

/-- In a list of levels and kinds, a plan of this shape is told from what follows it, as long as
that is not below the plan. -/
def ReadsBack (p : Plan) : Prop :=
  ∀ level q r s, StartsAbove (level + 1) r → StartsAbove (level + 1) s →
    levelsAt level p ++ r = levelsAt level q ++ s →
      (∀ path, p.kindAt? path = q.kindAt? path) ∧ r = s

/-- Plans at a level, and what follows them above it, are above the next level. -/
theorem startsAbove_flatMap {level : Nat} (plans : List Plan) {rest : List (Nat × String)}
    (h : StartsAbove level rest) :
    StartsAbove (level + 1) (plans.flatMap (levelsAt level) ++ rest) := by
  cases plans with
  | nil => exact fun e he => Nat.lt_succ_of_lt (h e he)
  | cons p plans =>
    obtain ⟨head, children⟩ := p
    rw [List.flatMap_cons, levelsAt_node]
    rintro e ⟨⟩
    exact Nat.lt_succ_self level

/-- Plans at a level are told apart from one another, and from what follows them. -/
theorem kinds_eq_of_flatMap_eq {plans : List Plan} (h : ∀ p ∈ plans, p.ReadsBack) {level : Nat}
    {plans' : List Plan} {r s : List (Nat × String)} (hr : StartsAbove level r)
    (hs : StartsAbove level s)
    (heq : plans.flatMap (levelsAt level) ++ r = plans'.flatMap (levelsAt level) ++ s) :
    (∀ (i : Nat) path, plans[i]?.bind (kindAt? · path) = plans'[i]?.bind (kindAt? · path)) ∧
      r = s := by
  -- A plan at this level on one side only would start what follows on the other side.
  have hnever : ∀ {p : Plan} {rest t : List (Nat × String)}, StartsAbove level t →
      t ≠ levelsAt level p ++ rest := by
    rintro ⟨head, children⟩ rest t ht rfl
    rw [levelsAt_node] at ht
    exact absurd (ht _ rfl) (Nat.lt_irrefl level)
  induction plans generalizing plans' with
  | nil =>
    cases plans' with
    | nil => exact ⟨fun _ _ => rfl, heq⟩
    | cons q plans' =>
      rw [List.flatMap_cons, List.append_assoc] at heq
      exact absurd heq (hnever hr)
  | cons p plans ih =>
    cases plans' with
    | nil =>
      rw [List.flatMap_cons, List.append_assoc] at heq
      exact absurd heq.symm (hnever hs)
    | cons q plans' =>
      rw [List.forall_mem_cons] at h
      simp only [List.flatMap_cons, List.append_assoc] at heq
      obtain ⟨hfirst, hrest⟩ := h.1 level q _ _ (startsAbove_flatMap plans hr)
        (startsAbove_flatMap plans' hs) heq
      obtain ⟨hothers, hrs⟩ := ih h.2 hrest
      refine ⟨fun i path => ?_, hrs⟩
      cases i with
      | zero => exact hfirst path
      | succ i => exact hothers i path

/-- **Levels and kinds, in this order, determine the shape of a plan.** -/
theorem readsBack (p : Plan) : p.ReadsBack := by
  induction p using induction with
  | node head children ih =>
    rintro level ⟨head', children'⟩ r s hr hs heq
    rw [levelsAt_node, levelsAt_node, List.cons_append, List.cons_append] at heq
    obtain ⟨hhead, hbelow⟩ := List.cons.inj heq
    obtain ⟨hchildren, hrs⟩ := kinds_eq_of_flatMap_eq ih hr hs hbelow
    refine ⟨fun path => ?_, hrs⟩
    cases path with
    | nil => exact congrArg some (Prod.mk.inj hhead).2
    | cons i path =>
      rw [kindAt?_cons, kindAt?_cons]
      exact hchildren i path

/-! ## The outline -/

/-- A line shows a node at a path: it is indented by exactly two blanks for each level of the path,
and after them it has the text of the node. -/
structure Shows (line : String) (e : List Nat × PlanNode) : Prop where
  text_eq : line = indent e.1.length ++ e.2.text
  indentation_eq : Text.indentation line = 2 * e.1.length

/-- Plans whose outlines have the same lines have the same shape. -/
theorem kinds_eq_of_lines_eq
    (h : p.places.map (fun e => lineOf e.1.length e.2) =
      q.places.map fun e => lineOf e.1.length e.2) (path : List Nat) :
    p.kindAt? path = q.kindAt? path := by
  have hlevels : levelsAt 0 p = levelsAt 0 q := by
    -- A line tells all that the level and the kind are made of, so they are a function of it.
    have htells : Function.FactorsThrough
        (fun e : List Nat × PlanNode => (0 + e.1.length, e.2.kindName))
        fun e => lineOf e.1.length e.2 := by
      intro e f hef
      obtain ⟨hlevel, hkind⟩ := level_eq_of_line_eq hef
      simp only [hlevel, hkind]
    obtain ⟨read, hread⟩ := (Function.factorsThrough_iff _).mp htells
    rw [levelsAt, levelsAt, hread, ← List.map_map, ← List.map_map, h]
  exact (p.readsBack 0 q [] [] nofun nofun (by rw [hlevels])).1 path

/-- **The outline shows the shape of a plan.** If no name, key or type in the plan has a line feed,
there is exactly one line for each node, in the order of their paths, and each is indented by
exactly two blanks for each level of its node. Two such plans with the same outline have a node at
the same paths, and of the same kind. -/
theorem outline_faithful (p : Plan) (hp : p.LabelsAreLines) :
    (List.Forall₂ Shows (Text.split '\n' p.outline) p.places ∧
      (∀ path n, (path, n) ∈ p.places ↔ p.at? path = some n) ∧
      p.places.Pairwise fun e f => e.1 < f.1) ∧
    ∀ q : Plan, q.LabelsAreLines → p.outline = q.outline →
      ∀ path, p.kindAt? path = q.kindAt? path := by
  refine ⟨⟨?_, fun path n => mem_places_iff, pairwise_places p⟩, fun q hq heq => ?_⟩
  · rw [split_outline hp, List.forall₂_map_left_iff, List.forall₂_same]
    exact fun e _ => ⟨rfl, indentation_lineOf _ _⟩
  · refine kinds_eq_of_lines_eq ?_
    rw [← split_outline hp, ← split_outline hq, heq]

/-- A loop over a wait and a call with a command inside another, to spawners of the given keys. -/
def callTo (keys : List String) : Plan :=
  .node .forever [.node .sequence
    [.node (.wait .zero) [],
      .node (.spawnNamed "call" [.transmit "drone" [.spawn .mob (some keys)]]) []]]

/-- Two keys and a single one with a comma make the same outline: of the labels not everything can
be read back, but the shape can. -/
theorem outline_faithful_callTo :
    let two := callTo ["left", "right"]
    let one := callTo ["left, right"]
    two ≠ one ∧ two.LabelsAreLines ∧ one.LabelsAreLines ∧ two.outline = one.outline ∧
      ∀ path, two.kindAt? path = one.kindAt? path := by
  intro two one
  have htwo : two.LabelsAreLines := by decide
  have hone : one.LabelsAreLines := by decide
  have heq : two.outline = one.outline := by decide
  refine ⟨by simp [two, one, callTo], htwo, hone, heq, (outline_faithful two htwo).2 one hone heq⟩

end Plan

end Bestiary
