import Bestiary.Text.Units

/-!
# Names of mobs

A mob is named by the path of its file below the asset root, without the extension. References to
mobs may be written as paths or as names; both are brought to the name.

* `nameOf` is the name of a reference; `DocumentKind.ofPath` tells patches from mobs.
-/

namespace Bestiary

/-- The asset root that paths start with unless a project says otherwise. -/
def defaultRoot : String := "mobs/"

/-- The end of the path of a mob file. -/
def mobExtension : String := ".mob"

/-- The end of the path of a patch file. -/
def patchExtension : String := ".mobpatch"

/-- A path below the asset root without the extension. -/
def withoutExtension (path : String) : String :=
  match Text.withoutEnd? mobExtension path with
  | some name => name
  | none => (Text.withoutEnd? patchExtension path).getD path

/-- The name that a reference stands for: the root in front and one extension are taken off. -/
def nameOf (root ref : String) : String :=
  withoutExtension ((Text.withoutStart? root ref).getD ref)

/-- The kinds of documents. -/
inductive DocumentKind where
  | mob
  | patch
  deriving DecidableEq

/-- The name of a kind. -/
def DocumentKind.name : DocumentKind → String
  | .mob => "mob"
  | .patch => "mobpatch"

/-- The kind of the document in a file. -/
def DocumentKind.ofPath (path : String) : DocumentKind :=
  if Text.endsIn patchExtension path then .patch else .mob

end Bestiary
