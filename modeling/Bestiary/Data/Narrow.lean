import Bestiary.Data.Basic
import Bestiary.Data.FieldPath

/-!
# Narrowing loose data to values

Decoded data becomes a value when nothing in it lies outside the value model. The first thing that
does, in document order, is reported with its place.

* `Loose.narrow` is the check, `NarrowError` its outcome when something is found.
* `Loose.withoutAbsent` leaves out what is absent.
* `narrow_loosen` says that values pass it unchanged.
-/

namespace Bestiary

/-- A thing outside the value model, and its place. -/
structure NarrowError where
  found : Foreign
  place : FieldPath

namespace NarrowError

/-- The place as messages name it. -/
def placeText (e : NarrowError) : String :=
  if e.place.text = "" then "document root" else s!"\"{e.place.text}\""

/-- What is wrong. -/
def message (e : NarrowError) : String :=
  match e.found with
  | .notANumber | .infinite _ => s!"Non-finite number at {e.placeText}"
  | .moment => s!"Datetime values are not supported (at {e.placeText})"
  | found => s!"Unsupported {HasKind.kind found} value at {e.placeText}"

end NarrowError

namespace Loose

mutual

/-- The value at `place` that the data is, or the first thing in it that is none. -/
def narrowAt (place : FieldPath) : Loose → Except NarrowError Value
  | .text s => .ok (.text s)
  | .number n => .ok (.number n)
  | .flag b => .ok (.flag b)
  | .list items => .list <$> narrowItems place 0 items
  | .table entries => .table <$> narrowEntries place entries
  | .alien found => .error ⟨found, place⟩

/-- `narrowAt` on the items from position `i` on. -/
def narrowItems (place : FieldPath) (i : Nat) : List Loose → Except NarrowError (List Value)
  | [] => .ok []
  | d :: items => do
    let v ← narrowAt (place ++ [.index i]) d
    let rest ← narrowItems place (i + 1) items
    pure (v :: rest)

/-- `narrowAt` under every key. -/
def narrowEntries (place : FieldPath) :
    List (String × Loose) → Except NarrowError (List (String × Value))
  | [] => .ok []
  | (k, d) :: entries => do
    let v ← narrowAt (place ++ [.key k]) d
    let rest ← narrowEntries place entries
    pure ((k, v) :: rest)

end

/-- The value that the data is, or the first thing in it that is none. -/
def narrow (d : Loose) : Except NarrowError Value := narrowAt [] d

mutual

/-- The data without the entries of tables that are absent. A moment has no entries. -/
def withoutAbsent : Loose → Loose
  | .list items => .list (withoutAbsentItems items)
  | .table entries => .table (withoutAbsentEntries entries)
  | .alien .moment => .table []
  | d => d

/-- `withoutAbsent` on every item. -/
def withoutAbsentItems : List Loose → List Loose
  | [] => []
  | d :: items => withoutAbsent d :: withoutAbsentItems items

/-- `withoutAbsent` under every key, without the keys of absent entries. -/
def withoutAbsentEntries : List (String × Loose) → List (String × Loose)
  | [] => []
  | (_, .alien .absent) :: entries => withoutAbsentEntries entries
  | (k, d) :: entries => (k, withoutAbsent d) :: withoutAbsentEntries entries

end

mutual

theorem narrowAt_loosen (place : FieldPath) :
    ∀ v : Value, narrowAt place (v.mapAlien Empty.elim) = .ok v
  | .text _ => rfl
  | .number _ => rfl
  | .flag _ => rfl
  | .list items => by
    simp [Data.mapAlien, narrowAt, narrowItems_loosen, Functor.map, Except.map]
  | .table entries => by
    simp [Data.mapAlien, narrowAt, narrowEntries_loosen, Functor.map, Except.map]

theorem narrowItems_loosen (place : FieldPath) (i : Nat) :
    ∀ items : List Value, narrowItems place i (Data.mapItems Empty.elim items) = .ok items
  | [] => rfl
  | v :: items => by
    simp [Data.mapItems, narrowItems, narrowAt_loosen, narrowItems_loosen, bind, Except.bind, pure,
      Except.pure]

theorem narrowEntries_loosen (place : FieldPath) :
    ∀ entries : List (String × Value),
      narrowEntries place (Data.mapEntries Empty.elim entries) = .ok entries
  | [] => rfl
  | (k, v) :: entries => by
    simp [Data.mapEntries, narrowEntries, narrowAt_loosen, narrowEntries_loosen, bind, Except.bind,
      pure, Except.pure]

end

/-- A value is narrowed to itself. -/
theorem narrow_loosen (v : Value) : narrow v.loosen = .ok v := narrowAt_loosen [] v

mutual

/-- Nothing in a value is absent. -/
theorem withoutAbsent_loosen :
    ∀ v : Value, withoutAbsent (v.mapAlien Empty.elim) = v.mapAlien Empty.elim
  | .text _ => rfl
  | .number _ => rfl
  | .flag _ => rfl
  | .list items => by simp [Data.mapAlien, withoutAbsent, withoutAbsentItems_loosen]
  | .table entries => by simp [Data.mapAlien, withoutAbsent, withoutAbsentEntries_loosen]

theorem withoutAbsentItems_loosen :
    ∀ items : List Value,
      withoutAbsentItems (Data.mapItems Empty.elim items) = Data.mapItems Empty.elim items
  | [] => rfl
  | v :: items => by
    simp [Data.mapItems, withoutAbsentItems, withoutAbsent_loosen, withoutAbsentItems_loosen]

theorem withoutAbsentEntries_loosen :
    ∀ entries : List (String × Value),
      withoutAbsentEntries (Data.mapEntries Empty.elim entries) =
        Data.mapEntries Empty.elim entries
  | [] => rfl
  | (k, v) :: entries => by
    have hkept : ∀ rest, withoutAbsentEntries ((k, v.mapAlien Empty.elim) :: rest) =
        (k, withoutAbsent (v.mapAlien Empty.elim)) :: withoutAbsentEntries rest := fun rest => by
      cases v with
      | alien e => exact e.elim
      | _ => rfl
    rw [Data.mapEntries, hkept, withoutAbsent_loosen, withoutAbsentEntries_loosen]

end

end Loose

end Bestiary
