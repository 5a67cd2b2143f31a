import Bestiary.Data.Basic

/-!
# Documents under construction

While a document is read, each entry remembers which kind of declaration first named it, since that
decides which later declarations may go on with it:

* a value, which nothing may go on with;
* a table made by the path of a key, which more keys may extend;
* a table named by a header, which may be opened once, before or after its subtables;
* a series of tables, one for each header in double brackets; going below it means its last one;
* a table on the way to a series, which a header may still open.

`assign?`, `openTable?` and `openElement?` make the three declarations; each gives none where the
rules forbid it.
-/

namespace Bestiary.Toml

/-- An entry of a document under construction. -/
inductive Draft where
  | value (d : Loose)
  | keyed (entries : List (String × Draft))
  | opened (defined : Bool) (entries : List (String × Draft))
  | between (defined : Bool) (entries : List (String × Draft))
  | series (elements : List (List (String × Draft)))

namespace Draft

/-- The entries with `value` declared under the key. -/
def assign? (entries : Table Draft) (key : List String) (value : Loose) : Option (Table Draft) :=
  match key with
  | [] => none
  | [k] => if entries.has k then none else some (entries.set k (.value value))
  | k :: rest =>
    match entries.get? k with
    | none => (assign? [] rest value).map fun es => entries.set k (.keyed es)
    | some (.keyed es) => (assign? es rest value).map fun es => entries.set k (.keyed es)
    | some (.between defined es) =>
      (assign? es rest value).map fun es => entries.set k (.between defined es)
    | some _ => none

/-- Whether a value may be declared under the key. -/
def admits (entries : Table Draft) (key : List String) : Bool :=
  (assign? entries key (.flag true)).isSome

/-- A series with its last element changed. -/
def changeLast? (change : Table Draft → Option (Table Draft)) (elements : List (Table Draft)) :
    Option (List (Table Draft)) :=
  (elements.getLast?.bind change).map fun es => elements.dropLast ++ [es]

/-- An entry that further declarations may go below, with what is below it changed. -/
def below? (change : Table Draft → Option (Table Draft)) : Draft → Option Draft
  | .value _ => none
  | .keyed es => (change es).map .keyed
  | .opened defined es => (change es).map (.opened defined)
  | .between defined es => (change es).map (.between defined)
  | .series elements => (changeLast? change elements).map .series

/-- The entries with the table under the key opened by a header. -/
def openTable? (entries : Table Draft) (key : List String) : Option (Table Draft) :=
  match key with
  | [] => none
  | [k] =>
    match entries.get? k with
    | none => some (entries.set k (.opened true []))
    | some (.opened false es) => some (entries.set k (.opened true es))
    | some (.between false es) => some (entries.set k (.between true es))
    | some _ => none
  | k :: rest =>
    match entries.get? k with
    | none => (openTable? [] rest).map fun es => entries.set k (.opened false es)
    | some d => (below? (openTable? · rest) d).map (entries.set k)

/-- The entries with one more table in the series under the key. -/
def openElement? (entries : Table Draft) (key : List String) : Option (Table Draft) :=
  match key with
  | [] => none
  | [k] =>
    match entries.get? k with
    | none => some (entries.set k (.series [[]]))
    | some (.series elements) => some (entries.set k (.series (elements ++ [[]])))
    | some _ => none
  | k :: rest =>
    match entries.get? k with
    | none => (openElement? [] rest).map fun es => entries.set k (.between false es)
    | some d => (below? (openElement? · rest) d).map (entries.set k)

/-- The entries with the table under the key changed. -/
def changeAt? (entries : Table Draft) (key : List String)
    (change : Table Draft → Option (Table Draft)) : Option (Table Draft) :=
  match key with
  | [] => change entries
  | k :: rest =>
    (entries.get? k).bind fun d =>
      (below? (changeAt? · rest change) d).map (entries.set k)

mutual

/-- The datum that an entry has become. -/
def finish : Draft → Loose
  | .value d => d
  | .keyed es => .table (finishEntries es)
  | .opened _ es => .table (finishEntries es)
  | .between _ es => .table (finishEntries es)
  | .series elements => .list (finishElements elements)

/-- The entries that a table has got. -/
def finishEntries : List (String × Draft) → List (String × Loose)
  | [] => []
  | (k, d) :: rest => (k, finish d) :: finishEntries rest

/-- The tables that a series has got. -/
def finishElements : List (List (String × Draft)) → List Loose
  | [] => []
  | es :: rest => .table (finishEntries es) :: finishElements rest

end

end Draft

end Bestiary.Toml
