import Bestiary.CommandLine.Commands
import Bestiary.Proofs.CommandLine.Program
import Bestiary.Proofs.CommandLine.TypedPath

/-!
# What a listing of a tree prints

The command that lists the behavior tree of a document reads the path and the document and prints
the listing of the tree below that path, line by line or as JSON, and nothing else.

* `on_treeCommand` says so where a node stands at the path, `on_treeCommand_of_nodeAt?_eq_none` what
  becomes of a path that leads nowhere.
-/

namespace Bestiary

open Program

namespace Program

/-- Lines are printed in their order. -/
theorem on_forM_print {α : Type} (line : α → String) (items : List α) (w : World) :
    (items.forM fun a => print (line a)).on w =
      (.ok (), { w with output := w.output ++ items.map line }) := by
  induction items generalizing w with
  | nil =>
    rw [List.map_nil, List.append_nil]
    rfl
  | cons a items ih =>
    calc ((a :: items).forM fun a => print (line a)).on w
        = (items.forM fun a => print (line a)).on { w with output := w.output ++ [line a] } := rfl
      _ = (.ok (), { w with output := w.output ++ [line a] ++ items.map line }) := ih _
      _ = (.ok (), { w with output := w.output ++ (a :: items).map line }) := by
        rw [List.append_assoc, List.singleton_append, List.map_cons]

end Program

variable {options : Options} {args : List String} {file : String} {base : TreePath}
  {document : Table Value} {behavior : Value} {w : World}

/-- The lines of a listing as they are printed. -/
def printedListing (format : Format) (base : TreePath) (root : Value) : List String :=
  match format with
  | .json => [Json.indented (.list ((base.listing root).map treeLineData))]
  | .text => (base.listing root).map (treeLineText (base.path?.getD []))

/-- **A listing is printed** where a node stands at the path. -/
theorem on_treeCommand (hfile : firstPositional? ["--path"] args = some file)
    (hbase : TreePath.read? ((flagValue? "--path" args).getD "") = some base)
    (hdocument : (readDocument file).on w = (.ok document, w))
    (hbehavior : document.get? "behavior" = some behavior) (hnode : base.nodeAt? behavior ≠ none) :
    (treeCommand options args).on w =
      (.ok .success,
        { w with output := w.output ++ printedListing options.format base behavior }) := by
  have hlisting : base.listing behavior ≠ [] := mt TreePath.listing_eq_nil_iff.mp hnode
  unfold treeCommand
  simp only [hfile, hbase]
  rw [on_bind, hdocument]
  simp only [hbehavior]
  rw [← TreePath.listing, if_neg (by simpa using hlisting)]
  cases hformat : options.format with
  | json => rfl
  | text =>
    simp only
    rw [on_bind, on_forM_print]
    rfl

/-- A path that leads to no node is an error, and nothing is printed. -/
theorem on_treeCommand_of_nodeAt?_eq_none (hfile : firstPositional? ["--path"] args = some file)
    (hbase : TreePath.read? ((flagValue? "--path" args).getD "") = some base)
    (hdocument : (readDocument file).on w = (.ok document, w))
    (hbehavior : document.get? "behavior" = some behavior) (hnode : base.nodeAt? behavior = none) :
    (treeCommand options args).on w =
      (.error ⟨s!"No node at path {base.text}", .violation⟩, w) := by
  have hlisting : base.listing behavior = [] := TreePath.listing_eq_nil_iff.mpr hnode
  unfold treeCommand
  simp only [hfile, hbase]
  rw [on_bind, hdocument]
  simp only [hbehavior]
  rw [← TreePath.listing, hlisting]
  rfl

end Bestiary
