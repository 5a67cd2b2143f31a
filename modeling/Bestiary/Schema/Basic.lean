import Bestiary.Mob.Name
import Bestiary.Schema.Record

/-!
# Schemas

A schema describes values of one shape. Reading a value by a schema gives the value that it means:
fields in the order in which the schema lists them, with defaults for what is absent. Records are
closed: a key that is not listed is an issue.

An issue is either fatal, or a mere flaw of a value that has the right shape otherwise (an unknown
key, an item too many, a number out of range). The difference decides between variants: a value
that fits none of them without issue is taken for the first one that it fits but for flaws.

* `Schema.read` reads a value. Only the first issue counts; `Outcome.toExcept` gives it.
-/

namespace Bestiary

/-- What reading gave: a value, or the first issue, with the gravest kind of issue that was met. -/
inductive Outcome (α : Type) where
  | accepted (a : α)
  | flawed (first : Issue)
  | refused (first : Issue)

namespace Outcome

variable {α β γ : Type}

/-- The outcome with its value changed. -/
def map (f : α → β) : Outcome α → Outcome β
  | .accepted a => .accepted (f a)
  | .flawed issue => .flawed issue
  | .refused issue => .refused issue

/-- The outcome of reading two parts, the first part first. -/
def map₂ (f : α → β → γ) : Outcome α → Outcome β → Outcome γ
  | .accepted a, o => o.map (f a)
  | .flawed issue, .refused _ => .refused issue
  | .flawed issue, _ => .flawed issue
  | .refused issue, _ => .refused issue

/-- The outcome of reading data one step further down. -/
def under (step : Step) : Outcome α → Outcome α
  | .accepted a => .accepted a
  | .flawed issue => .flawed (issue.below step)
  | .refused issue => .refused (issue.below step)

/-- Nothing to read, but a flaw if the condition fails. -/
def orFlaw (ok : Bool) (complaint : Complaint) : Outcome Unit :=
  if ok then .accepted () else .flawed (.here complaint)

/-- The value, if it was accepted, or the first issue. -/
def toExcept : Outcome α → Except Issue α
  | .accepted a => .ok a
  | .flawed issue => .error issue
  | .refused issue => .error issue

end Outcome

/-- Whether a field must be there, may be absent, or has a value that stands for it. -/
inductive Presence where
  | required
  | optional
  | defaulted (value : Value)

/-- A description of values. -/
inductive Schema where
  | text
  | number
  | flag
  /-- A whole number from zero up to a greatest one, if there is one. -/
  | natural (most : Option Nat)
  /-- A reference to a mob, read as the name that it stands for. -/
  | mobRef
  | oneOf (names : List String)
  | pair (first second : Schema)
  | list (item : Schema)
  /-- A table with entries of one shape under any keys. -/
  | dictionary (entry : Schema)
  | record (fields : List (String × Presence × Schema))
  | variants (alternatives : List Schema)
  | anything

namespace Schema

open Outcome

/-- The key that a dictionary never keeps. -/
def reservedKey : String := "__proto__"

/-- The complaint that data is of another kind. -/
def wrongKind (expected : String) (v : Value) : Outcome Value :=
  .refused (Record.wrongKind expected v)

/-- A whole number of at most `most`. -/
def readNatural (most : Option Nat) (v : Value) : Outcome Value :=
  match v with
  | .number n =>
    if !n.isInteger then .flawed (.here (.wrongKind "integer" "float"))
    else if n < .zero then .flawed (.here (.belowLeast 0))
    else
      match most with
      | none => .accepted v
      | some most =>
        if .ofSmall most < n then .flawed (.here (.aboveMost most)) else .accepted v
  | _ => wrongKind "number" v

/-- One of the listed names. -/
def readOneOf (names : List String) (v : Value) : Outcome Value :=
  match v with
  | .text s => if names.contains s then .accepted v else .refused (.here (.notListed names s))
  | _ => wrongKind (optionsText names) v

/-- A list of two. A third item is a flaw; a missing one is not. -/
def readPair (first second : Value → Outcome Value) (v : Value) : Outcome Value :=
  match v with
  | .list (a :: b :: rest) =>
    map₂ (fun _ items => .list items) (orFlaw rest.isEmpty (.tooManyItems 2)) <|
      map₂ (fun a b => [a, b]) ((first a).under (.index 0)) ((second b).under (.index 1))
  | .list _ => .refused (.here (.tooFewItems 2))
  | _ => wrongKind "array" v

/-- The items of a list from position `i` on. -/
def readItems (item : Value → Outcome Value) (i : Nat) : List Value → Outcome (List Value)
  | [] => .accepted []
  | v :: items => map₂ (· :: ·) ((item v).under (.index i)) (readItems item (i + 1) items)

/-- The entries of a dictionary. -/
def readEntries (entry : Value → Outcome Value) : List (String × Value) → Outcome (Table Value)
  | [] => .accepted []
  | (k, v) :: entries =>
    map₂ (fun v rest => if k = reservedKey then rest else (k, v) :: rest)
      ((entry v).under (.key k)) (readEntries entry entries)

/-- The check that a record has no keys but its own. -/
def readClosed (allowed : List String) (entries : Table Value) : Outcome Unit :=
  match Record.unknownKeys allowed entries with
  | [] => .accepted ()
  | first :: others => .flawed (.here (.unknownKeys first others))

/-- The first of the outcomes that was accepted, else the first that was merely flawed. -/
def firstFitting : List (Outcome Value) → Outcome Value
  | [] => .refused (.here .noAlternative)
  | .accepted v :: _ => .accepted v
  | .refused _ :: rest => firstFitting rest
  | .flawed issue :: rest =>
    match firstFitting rest with
    | .accepted v => .accepted v
    | _ => .flawed issue

/-- What is said of a required field that is absent. -/
def complaintIfAbsent : Schema → Complaint
  | .variants _ => .noAlternative
  | _ => .missing

/-- What an absent field is read as. -/
def readAbsent (presence : Presence) (key : String) (s : Schema) : Outcome (Table Value) :=
  match presence with
  | .required => .refused ⟨[.key key], s.complaintIfAbsent⟩
  | .optional => .accepted []
  | .defaulted v => .accepted [(key, v)]

mutual

/-- The value that `v` means by a schema. -/
def read : Schema → Value → Outcome Value
  | .text, v =>
    match v with
    | .text _ => .accepted v
    | _ => wrongKind "string" v
  | .number, v =>
    match v with
    | .number _ => .accepted v
    | _ => wrongKind "number" v
  | .flag, v =>
    match v with
    | .flag _ => .accepted v
    | _ => wrongKind "boolean" v
  | .natural most, v => readNatural most v
  | .mobRef, v =>
    match v with
    | .text s => .accepted (.text (nameOf defaultRoot s))
    | _ => wrongKind "string" v
  | .oneOf names, v => readOneOf names v
  | .pair first second, v => readPair (read first) (read second) v
  | .list item, v =>
    match v with
    | .list items => (readItems (read item) 0 items).map .list
    | _ => wrongKind "array" v
  | .dictionary entry, v =>
    match v with
    | .table entries => (readEntries (read entry) entries).map .table
    | _ => wrongKind "object" v
  | .record fields, v =>
    match v with
    | .table entries =>
      map₂ (fun t _ => .table t) (readFields fields entries)
        (readClosed (fields.map Prod.fst) entries)
    | _ => wrongKind "object" v
  | .variants alternatives, v => firstFitting (readEach alternatives v)
  | .anything, v => .accepted v

/-- The declared fields of a record, in the order in which they are declared. -/
def readFields : List (String × Presence × Schema) → Table Value → Outcome (Table Value)
  | [], _ => .accepted []
  | (key, presence, s) :: fields, entries =>
    let field := match entries.get? key with
      | some v => ((read s v).under (.key key)).map fun v => [(key, v)]
      | none => readAbsent presence key s
    map₂ (· ++ ·) field (readFields fields entries)

/-- What `v` means by each of several schemas. -/
def readEach : List Schema → Value → List (Outcome Value)
  | [], _ => []
  | s :: alternatives, v => read s v :: readEach alternatives v

end

/-- The fields with none of them required and no defaults. -/
def allOptional (fields : List (String × Presence × Schema)) :
    List (String × Presence × Schema) :=
  fields.map fun (key, _, s) => (key, .optional, s)

end Schema

end Bestiary
