import Bestiary.Data.Table
import Bestiary.Number.Decimal

/-!
# Data

Structured data: texts, numbers, flags, lists and tables. `Data ε` may also hold things of type
`ε` that do not belong to the value model. `Value` is the data without any, which every operation
on definitions works on; `Loose` is what a decoder can produce before it is narrowed.

* `Data.kind` names the kind of a datum as messages show it.
* `Data.mapAlien` changes what stands outside the model; `Value.loosen` views a value as loose.
-/

namespace Bestiary

/-- Structured data with leaves of type `ε` that lie outside the value model. -/
inductive Data (ε : Type) where
  | text (s : String)
  | number (n : Number)
  | flag (b : Bool)
  | list (items : List (Data ε))
  | table (entries : List (String × Data ε))
  | alien (e : ε)

instance {ε : Type} : Inhabited (Data ε) := ⟨.flag false⟩

/-- The values that definitions are made of. -/
abbrev Value := Data Empty

/-- What a decoder may produce that is no value. -/
inductive Foreign where
  | null
  | absent
  | bigInteger
  | callable
  | moment
  | notANumber
  | infinite (negative : Bool)
  deriving DecidableEq

/-- Decoded data before it is narrowed to a value. -/
abbrev Loose := Data Foreign

/-- Things outside the value model that messages can name. -/
class HasKind (ε : Type) where
  /-- The name of the kind. -/
  kind : ε → String

instance : HasKind Empty := ⟨fun e => nomatch e⟩

instance : HasKind Foreign where
  kind
    | .null => "null"
    | .absent => "undefined"
    | .bigInteger => "bigint"
    | .callable => "function"
    | .moment => "date"
    | .notANumber => "nan"
    | .infinite _ => "number"

namespace Data

variable {ε δ : Type}

/-- The name of the kind of a datum. -/
def kind [HasKind ε] : Data ε → String
  | .text _ => "string"
  | .number _ => "number"
  | .flag _ => "boolean"
  | .list _ => "array"
  | .table _ => "object"
  | .alien e => HasKind.kind e

/-- The text that a datum is, if it is one. -/
def text? : Data ε → Option String
  | .text s => some s
  | _ => none

/-- The number that a datum is, if it is one. -/
def number? : Data ε → Option Number
  | .number n => some n
  | _ => none

/-- The items of a list. -/
def list? : Data ε → Option (List (Data ε))
  | .list items => some items
  | _ => none

/-- The entries of a table. -/
def table? : Data ε → Option (Table (Data ε))
  | .table entries => some entries
  | _ => none

/-- Whether a datum is a table. -/
def isTable (d : Data ε) : Bool := d.table?.isSome

/-- A list of texts. -/
def texts (l : List String) : Data ε := .list (l.map .text)

/-- A small natural number. -/
def natural (n : Nat) : Data ε := .number (.ofSmall n)

/-- The entry of a table under a key; nothing else has entries. -/
def field? (d : Data ε) (key : String) : Option (Data ε) := d.table?.bind (·.get? key)

mutual

/-- The same data with other things outside the model. -/
def mapAlien (f : ε → δ) : Data ε → Data δ
  | .text s => .text s
  | .number n => .number n
  | .flag b => .flag b
  | .list items => .list (mapItems f items)
  | .table entries => .table (mapEntries f entries)
  | .alien e => .alien (f e)

/-- `mapAlien` on every item. -/
def mapItems (f : ε → δ) : List (Data ε) → List (Data δ)
  | [] => []
  | d :: items => mapAlien f d :: mapItems f items

/-- `mapAlien` under every key. -/
def mapEntries (f : ε → δ) : List (String × Data ε) → List (String × Data δ)
  | [] => []
  | (k, d) :: entries => (k, mapAlien f d) :: mapEntries f entries

end

end Data

/-- A value as loose data. -/
def Value.loosen (v : Value) : Loose := v.mapAlien Empty.elim

end Bestiary
