import Bestiary.Data.FieldPath

/-!
# Issues

What a reader that expects data of a certain shape has to say about data of another shape: where
the data differs, and how. A reader reports the first issue only.

* `Complaint` lists the ways to differ, `Complaint.message` words them.
* `Issue` adds the place.
-/

namespace Bestiary

/-- How data differs from what was expected. -/
inductive Complaint where
  | missing
  | wrongKind (expected received : String)
  | notListed (options : List String) (received : String)
  | unlistedTag (options : List String)
  | belowLeast (least : Nat)
  | aboveMost (most : Nat)
  | notAbove (bound : Nat)
  | tooFewItems (least : Nat)
  | tooManyItems (most : Nat)
  | tooShort (least : Nat)
  | noAlternative
  | unknownKeys (first : String) (others : List String)
  | other (text : String)

/-- A name in single quotes. -/
def singleQuoted (name : String) : String := s!"'{name}'"

/-- The names that were possible. -/
def optionsText (options : List String) : String := " | ".intercalate (options.map singleQuoted)

/-- The wording of a complaint. -/
def Complaint.message : Complaint → String
  | .missing => "Required"
  | .wrongKind expected received => s!"Expected {expected}, received {received}"
  | .notListed options received =>
    s!"Invalid enum value. Expected {optionsText options}, received '{received}'"
  | .unlistedTag options => s!"Invalid discriminator value. Expected {optionsText options}"
  | .belowLeast least => s!"Number must be greater than or equal to {least}"
  | .aboveMost most => s!"Number must be less than or equal to {most}"
  | .notAbove bound => s!"Number must be greater than {bound}"
  | .tooFewItems least => s!"Array must contain at least {least} element(s)"
  | .tooManyItems most => s!"Array must contain at most {most} element(s)"
  | .tooShort least => s!"String must contain at least {least} character(s)"
  | .noAlternative => "Invalid input"
  | .unknownKeys first others =>
    s!"Unrecognized key(s) in object: " ++ ", ".intercalate ((first :: others).map singleQuoted)
  | .other text => text

/-- A complaint about the data at a place. -/
structure Issue where
  path : FieldPath
  complaint : Complaint

namespace Issue

/-- An issue with the data that is looked at. -/
def here (c : Complaint) : Issue := ⟨[], c⟩

/-- An issue found one step further down. -/
def below (step : Step) (issue : Issue) : Issue := { issue with path := step :: issue.path }

/-- The wording of the complaint. -/
def message (issue : Issue) : String := issue.complaint.message

end Issue

end Bestiary
