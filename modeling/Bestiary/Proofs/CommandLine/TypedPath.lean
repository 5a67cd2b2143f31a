import Bestiary.CommandLine.Arguments
import Bestiary.Proofs.Text.Split
import Bestiary.Proofs.Toml.NumberText
import Bestiary.Proofs.Tree.Listing

/-!
# Paths as they are printed and typed

A listing of a tree prints the path of every node that it shows, with a word of its own for the
root. Typed again, these are the paths of the nodes: positions are printed in digits, a dot is in
none of them, and numbers count exactly as far as a list can be long.

* `TreePath.read?_pathText`: a path that is printed is read back.
* `TreePath.listing` is what is listed below a typed path, `TreePath.nodeAt?` the node there.
* `TreePath.listing_addresses`: the paths in a listing, read back, are the paths of the nodes at and
  below the typed one, in their order.
-/

namespace Bestiary

namespace TreePath

open Bestiary.Tree (Path)

variable {i : Int} {path : Path}

/-! ## One step -/

theorem toList_repr (h : 0 ≤ i) : i.repr.toList = Nat.toDigits 10 i.toNat := by
  obtain ⟨n, rfl⟩ := Int.eq_ofNat_of_zero_le h
  exact Nat.toList_repr

/-- A position is printed in digits, and at least one. -/
theorem isDigit_of_mem_repr (h : 0 ≤ i) {c : Char} (hc : c ∈ i.repr.toList) :
    Text.isDigit c = true := by
  rw [toList_repr h] at hc
  exact Text.isDigit_of_mem_toDigits hc

/-- A position up to the safe integers is read back. -/
theorem exists_readStep?_repr (h : 0 ≤ i) (hsafe : i ≤ Number.largestSafe) :
    ∃ x : Number, readStep? i.repr = some (some x) ∧ x.toInt? = some i := by
  obtain ⟨n, rfl⟩ := Int.eq_ofNat_of_zero_le h
  obtain ⟨x, hread, hx⟩ := Number.exists_ofDecimal?_of_safe (Int.ofNat_le.mp hsafe)
  refine ⟨x, ?_, hx⟩
  have hdigits : (Nat.toDigits 10 n).all Text.isDigit = true :=
    List.all_eq_true.mpr fun _ => Text.isDigit_of_mem_toDigits
  unfold readStep?
  rw [toList_repr h, Int.toNat_natCast]
  simp only [Text.numeral_toDigits, hread, hdigits]
  simp [Nat.toDigits_ne_nil]

/-! ## A whole path -/

/-- The path can be typed: its positions are safe integers from zero up. -/
def IsTypable (path : Path) : Prop := ∀ i ∈ path, 0 ≤ i ∧ i ≤ Number.largestSafe

instance : DecidablePred IsTypable := fun path =>
  inferInstanceAs (Decidable (∀ i ∈ path, 0 ≤ i ∧ i ≤ (Number.largestSafe : Int)))

/-- The parts of the text of a path below the root are its positions. -/
theorem split_pathText (h : ∀ i ∈ path, 0 ≤ i) (hne : path ≠ []) :
    Text.split '.' (Tree.pathText path) = path.map Int.repr := by
  have htext : Tree.pathText path = (String.singleton '.').intercalate (path.map Int.repr) := by
    rw [Tree.pathText, if_neg (by simpa using hne)]
    rfl
  rw [htext, Text.split_intercalate (by simpa using hne)]
  intro part hpart
  obtain ⟨i, hi, rfl⟩ := List.mem_map.mp hpart
  intro hdot
  exact absurd (isDigit_of_mem_repr (h i hi) hdot) (by decide)

theorem exists_mapM_readStep? (h : IsTypable path) :
    ∃ typed : TreePath, (path.map Int.repr).mapM readStep? = some typed ∧
      typed.path? = some path := by
  induction path with
  | nil => exact ⟨[], rfl, rfl⟩
  | cons i path ih =>
    obtain ⟨hi, hpath⟩ := List.forall_mem_cons.mp h
    obtain ⟨x, hread, hx⟩ := exists_readStep?_repr hi.1 hi.2
    obtain ⟨typed, htyped, hback⟩ := ih hpath
    unfold TreePath.path? at hback
    refine ⟨some x :: typed, ?_, ?_⟩
    · rw [List.map_cons, List.mapM_cons, hread, htyped]
      rfl
    · rw [TreePath.path?, List.mapM_cons, hback, Option.bind_some, hx]
      rfl

/-- **A path that is printed is read back.** -/
theorem read?_pathText (h : IsTypable path) :
    (read? (Tree.pathText path)).bind path? = some path := by
  cases path with
  | nil => rfl
  | cons i path =>
    have hsplit := split_pathText (fun i hi => (h i hi).1) (List.cons_ne_nil i path)
    -- The first part is a number, so that the text is not that of the root.
    have hi := (h i List.mem_cons_self).1
    have hroot : ¬(Tree.pathText (i :: path) = "" ∨ Tree.pathText (i :: path) = "root") := by
      rintro (htext | htext) <;> rw [htext, List.map_cons] at hsplit
      · have hrepr : "" = i.repr := (List.cons.inj hsplit).1
        have hempty := toList_repr hi
        rw [← hrepr] at hempty
        exact Nat.toDigits_ne_nil hempty.symm
      · have hrepr : "root" = i.repr := (List.cons.inj hsplit).1
        exact absurd (isDigit_of_mem_repr hi (c := 'r') (by rw [← hrepr]; decide)) (by decide)
    obtain ⟨typed, htyped, hback⟩ := exists_mapM_readStep? h
    rw [read?, if_neg hroot, hsplit, htyped]
    exact hback

/-! ## Listings -/

/-- The lines of the nodes at and below a typed path. -/
def listing (root : Value) (base : TreePath) : List Tree.Line :=
  (base.path?.map (Tree.describe root)).getD []

/-- The node at a typed path. -/
def nodeAt? (root : Value) (base : TreePath) : Option Value := base.path?.bind (Tree.nodeAt? root)

/-- Something is listed below a typed path just when a node stands there. -/
theorem listing_eq_nil_iff {root : Value} {base : TreePath} :
    base.listing root = [] ↔ base.nodeAt? root = none := by
  unfold listing nodeAt?
  cases base.path? with
  | none => exact iff_of_true rfl rfl
  | some start => exact Tree.describe_eq_nil_iff

/-- A line shows the node at a path: its text is read back as that path, and it has the type that
the node names, if any, and the node's own name, if it has one. -/
structure Shows (root : Value) (l : Tree.Line) (path : Path) : Prop where
  reads : (read? (Tree.pathText l.path)).bind path? = some path
  type_eq : l.type = (Tree.typeAt? root path).getD "?"
  name_eq : ∃ v, Tree.nodeAt? root path = some v ∧ l.name = (v.field? "name").bind Data.text?

variable {root v : Value}

/-- The paths of nodes can be typed, as long as no node has more places for children than there are
safe integers. -/
theorem isTypable_of_nodeAt? (hcount : ∀ path, Tree.childCountAt root path ≤ Number.largestSafe)
    (h : Tree.nodeAt? root path = some v) : IsTypable path := by
  intro i hi
  obtain ⟨front, n, hn, rfl⟩ := Tree.exists_place_of_mem h hi
  have hle := hcount front
  exact ⟨Int.natCast_nonneg n, Int.ofNat_le.mpr (by omega)⟩

/-- The line of a node shows it. -/
theorem shows_lineAt (hcount : ∀ path, Tree.childCountAt root path ≤ Number.largestSafe)
    (h : Tree.nodeAt? root path = some v) : Shows root (Tree.lineAt root path) path := by
  refine ⟨read?_pathText (isTypable_of_nodeAt? hcount h), rfl, v, h, ?_⟩
  rw [Tree.lineAt, Tree.fieldAt?, h, Option.bind_some]

/-- **The paths in a listing are the paths of the nodes.** Below a typed path at which no node
stands nothing is listed. Otherwise the paths in the lines, read back in their order, are those of
the nodes at and below it, each once, a node before what is below it, and each line has the type and
the name of its node. Paths are typed in numbers, so no list may be longer than numbers count
exactly. -/
theorem listing_addresses (root : Value)
    (hcount : ∀ path, Tree.childCountAt root path ≤ Number.largestSafe) (base : TreePath) :
    (base.listing root = [] ↔ base.nodeAt? root = none) ∧
    ∀ start v, base.path? = some start → Tree.nodeAt? root start = some v →
      ∃ addresses : List Path,
        List.Forall₂ (Shows root) (base.listing root) addresses ∧
        (∀ path, path ∈ addresses ↔
          start <+: path ∧ ∃ w, Tree.nodeAt? root path = some w) ∧
        addresses.Nodup ∧ addresses.Pairwise (· < ·) := by
  refine ⟨listing_eq_nil_iff, fun start v hstart hv => ?_⟩
  refine ⟨Tree.pathsBelow root start, ?_, fun path => Tree.mem_pathsBelow_iff,
    Tree.nodup_pathsBelow root start, Tree.pairwise_pathsBelow root start⟩
  rw [listing, hstart, Option.map_some, Option.getD_some, Tree.describe_eq_map,
    List.forall₂_map_left_iff, List.forall₂_same]
  intro path hpath
  obtain ⟨-, w, hw⟩ := Tree.mem_pathsBelow_iff.mp hpath
  exact shows_lineAt hcount hw

/-- The second child of a sequence whose first child is no node that can be read, with what is below
it. -/
theorem listing_addresses_starter :
    let root : Value :=
      .table [("type", .text "Sequence"), ("children", .list [.text "broken", Tree.starter])]
    ∃ base, read? "1" = some base ∧ base.listing root ≠ [] ∧
      ∃ addresses : List Path, List.Forall₂ (Shows root) (base.listing root) addresses ∧
        [1, 0] ∈ addresses ∧ [0] ∉ addresses ∧ addresses.Nodup := by
  intro root
  have hcount : ∀ path, Tree.childCountAt root path ≤ Number.largestSafe :=
    Tree.childCountAt_le (by decide)
  have htyped : IsTypable [1] := by decide
  obtain ⟨base, hread, hpath⟩ := Option.bind_eq_some_iff.mp (read?_pathText htyped)
  obtain ⟨hnil, hlisting⟩ := listing_addresses root hcount base
  obtain ⟨addresses, hshows, hmem, hnodup, -⟩ := hlisting [1] Tree.starter hpath rfl
  refine ⟨base, hread, fun h => ?_, addresses, hshows, ?_, ?_, hnodup⟩
  · have hnode := hnil.mp h
    rw [nodeAt?, hpath] at hnode
    cases hnode
  · exact (hmem [1, 0]).mpr ⟨by decide, _, rfl⟩
  · exact fun h => absurd ((hmem [0]).mp h).1 (by decide)

end TreePath

end Bestiary
