import Bestiary.Text.Split

/-!
# Paths as texts

Paths are relative, with slashes between their parts. They are simplified without a look at what is
on disk: empty parts and dots go, two dots take the part before them away.

* `simplified` gives the parts that are left, `joinPath` the simplified text of two paths.
* `folderOf` and `nameIn` split off the last part.
-/

namespace Bestiary

/-- The parts of a path, empty ones included. -/
def pathParts (path : String) : List String := Text.split '/' path

/-- The parts of a simplified path with one more part. -/
def addPart (parts : List String) (part : String) : List String :=
  if part = "" ∨ part = "." then parts
  else if part = ".." then
    match parts.getLast? with
    | none => [".."]
    | some last => if last = ".." then parts ++ [".."] else parts.dropLast
  else parts ++ [part]

/-- The parts that are left of a path. Two dots are only left at the start. -/
def simplified (path : String) : List String := (pathParts path).foldl addPart []

/-- The text of parts; a dot if there are none. -/
def partsText (parts : List String) : String :=
  if parts.isEmpty then "." else "/".intercalate parts

/-- A path below another, simplified. -/
def joinPath (folder path : String) : String := partsText (simplified s!"{folder}/{path}")

/-- The parts of a path without empty ones at its end. -/
def ownParts (path : String) : List String :=
  ((pathParts path).reverse.dropWhile fun part => part = "").reverse

/-- The path of the folder that a path leads into; a dot if it has no other part. -/
def folderOf (path : String) : String := partsText (ownParts path).dropLast

/-- The last part of a path. -/
def nameIn (path : String) : String := (ownParts path).getLast?.getD ""

end Bestiary
