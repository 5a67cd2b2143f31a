import Bestiary.Data.Basic
import Bestiary.Schema.Issue

/-!
# Reading records

Readers for the parts of a record: a field that must be there, a field that may be absent, and the
check that nothing else is there. Each reports the first issue that it meets.

* `asNumber`, `asText`, `asList` and `asTable` read a datum of one kind.
* `required`, `optional` and `closed` read a record; `readItems` reads a list.
-/

namespace Bestiary.Record

variable {ε α : Type} [HasKind ε]

/-- The complaint that a datum is of another kind. -/
def wrongKind (expected : String) (d : Data ε) : Issue := .here (.wrongKind expected d.kind)

/-- A number. -/
def asNumber (d : Data ε) : Except Issue Number :=
  match d with
  | .number n => .ok n
  | _ => .error (wrongKind "number" d)

/-- A text. -/
def asText (d : Data ε) : Except Issue String :=
  match d with
  | .text s => .ok s
  | _ => .error (wrongKind "string" d)

/-- A list. -/
def asList (d : Data ε) : Except Issue (List (Data ε)) :=
  match d with
  | .list items => .ok items
  | _ => .error (wrongKind "array" d)

/-- A table. -/
def asTable (d : Data ε) : Except Issue (Table (Data ε)) :=
  match d with
  | .table entries => .ok entries
  | _ => .error (wrongKind "object" d)

/-- What `read` makes of data one step further down. -/
def under (step : Step) (read : Except Issue α) : Except Issue α := read.mapError (Issue.below step)

/-- The items of a list from position `i` on. -/
def readItemsFrom (read : Data ε → Except Issue α) (i : Nat) :
    List (Data ε) → Except Issue (List α)
  | [] => .ok []
  | d :: items => do
    let a ← under (.index i) (read d)
    let rest ← readItemsFrom read (i + 1) items
    pure (a :: rest)

/-- The items of a list. -/
def readItems (read : Data ε → Except Issue α) (d : Data ε) : Except Issue (List α) := do
  readItemsFrom read 0 (← asList d)

/-- A field that must be there. -/
def required (entries : Table (Data ε)) (key : String) (read : Data ε → Except Issue α) :
    Except Issue α :=
  match entries.get? key with
  | some d => under (.key key) (read d)
  | none => .error ⟨[.key key], .missing⟩

/-- A field that may be absent. -/
def optional (entries : Table (Data ε)) (key : String) (read : Data ε → Except Issue α) :
    Except Issue (Option α) :=
  match entries.get? key with
  | some d => some <$> under (.key key) (read d)
  | none => .ok none

/-- The keys that are none of `allowed`, in order. -/
def unknownKeys (allowed : List String) (entries : Table (Data ε)) : List String :=
  entries.keys.filter fun k => !allowed.contains k

/-- The check that a record has no keys but the allowed ones. -/
def closed (allowed : List String) (entries : Table (Data ε)) : Except Issue Unit :=
  match unknownKeys allowed entries with
  | [] => .ok ()
  | first :: others => .error (.here (.unknownKeys first others))

end Bestiary.Record
