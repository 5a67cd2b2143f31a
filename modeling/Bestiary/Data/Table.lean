import Bestiary.Text.Units

/-!
# Ordered tables

A table is a list of entries with keys. Keys keep the order in which they were first written, with
one exception: keys that are array indexes stand in front, in ascending order. Writing to a key
that is present leaves it in its place; erasing a key and writing it again moves it to the end.

* `get?`, `set`, `erase` and `ofEntries` are the operations.
* `get?_set` and `get?_erase` say what is found after each.
* `Ordered` says which lists are tables in this sense: no key twice, indexes in front and
  ascending.
-/

namespace Bestiary

-- Powers are the built-in ones, whatever other powers are in scope.
attribute [local instance (high)] instPowNat

/-- Entries with keys, in the order in which they are listed. -/
abbrev Table (α : Type) := List (String × α)

/-- The array index that a key stands for: a decimal below `2 ^ 32 - 1` without leading zeros. -/
def arrayIndex? (key : String) : Option Nat :=
  let digits := key.toList
  if digits.all Char.isDigit && (digits.head?.any (· ≠ '0') || digits = ['0']) then
    let n := digits.foldl (fun n c => 10 * n + (c.toNat - '0'.toNat)) 0
    if n < 2 ^ (32 : Nat) - 1 then some n else none
  else none

namespace Table

variable {α : Type}

/-- The entry under `key`. -/
def get? : Table α → String → Option α
  | [], _ => none
  | (k, v) :: rest, key => if k = key then some v else get? rest key

/-- Whether there is an entry under `key`. -/
def has (t : Table α) (key : String) : Bool := (t.get? key).isSome

/-- The keys in order. -/
def keys (t : Table α) : List String := t.map Prod.fst

/-- Whether a key stands in front of a new key. -/
def standsBefore (key new : String) : Bool :=
  match arrayIndex? key, arrayIndex? new with
  | some i, some j => i < j
  | none, some _ => false
  | _, none => true

/-- The table with a new entry at the place of its key. -/
def insert (t : Table α) (key : String) (value : α) : Table α :=
  t.takeWhile (fun e => standsBefore e.1 key) ++
    (key, value) :: t.dropWhile (fun e => standsBefore e.1 key)

/-- The table with another value under a key that is present. -/
def replace : Table α → String → α → Table α
  | [], _, _ => []
  | (k, v) :: rest, key, value =>
    if k = key then (k, value) :: rest else (k, v) :: replace rest key value

/-- The table with `value` under `key`. -/
def set (t : Table α) (key : String) (value : α) : Table α :=
  if t.has key then t.replace key value else t.insert key value

/-- The table without the entry under `key`. -/
def erase (t : Table α) (key : String) : Table α := t.filter fun e => e.1 ≠ key

/-- The table with every entry of `entries` written to it in turn. -/
def setAll (t : Table α) (entries : List (String × α)) : Table α :=
  entries.foldl (fun t e => t.set e.1 e.2) t

/-- The table that holds the entries; of two under one key the later value counts. -/
def ofEntries (entries : List (String × α)) : Table α := setAll [] entries

/-- No key occurs twice, and the keys that are array indexes stand in front and ascend. -/
def Ordered (t : Table α) : Prop :=
  t.keys.Nodup ∧ t.keys.Pairwise fun a b => standsBefore a b = true

/-! ## Lemmas -/

theorem get?_append (t u : Table α) (key : String) :
    get? (t ++ u) key = (t.get? key).or (u.get? key) := by
  induction t with
  | nil => rfl
  | cons e t ih =>
    obtain ⟨k, v⟩ := e
    simp only [List.cons_append, get?]
    split <;> simp [ih]

theorem get?_replace (t : Table α) (k key : String) (value : α) :
    (t.replace k value).get? key =
      if k = key then (t.get? key).map (fun _ => value) else t.get? key := by
  induction t with
  | nil => simp [replace, get?]
  | cons e t ih =>
    obtain ⟨k', v⟩ := e
    simp only [replace]
    by_cases h : k' = k
    · subst h
      by_cases hk : k' = key <;> simp [get?, hk]
    · simp only [h, if_false, get?, ih]
      by_cases hk : k = key
      · subst hk
        simp [h]
      · simp [hk]

theorem get?_insert_of_not_has {t : Table α} {k : String} (value : α) (key : String)
    (h : t.get? k = none) :
    (t.insert k value).get? key = if k = key then some value else t.get? key := by
  have hsplit : t = t.takeWhile (fun e => standsBefore e.1 k) ++
      t.dropWhile (fun e => standsBefore e.1 k) := (List.takeWhile_append_dropWhile).symm
  have hnone := h
  rw [hsplit, get?_append, Option.or_eq_none_iff] at hnone
  simp only [insert, get?_append, get?]
  by_cases hk : k = key
  · subst hk
    simp [hnone.1]
  · simp only [hk, if_false]
    conv => rhs; rw [hsplit, get?_append]

/-- What is found under a key after a write. -/
@[simp] theorem get?_set (t : Table α) (k key : String) (value : α) :
    (t.set k value).get? key = if k = key then some value else t.get? key := by
  unfold set has
  cases h : t.get? k with
  | none => simpa [h] using get?_insert_of_not_has value key h
  | some v =>
    simp only [Option.isSome_some, if_true, get?_replace]
    by_cases hk : k = key
    · subst hk
      simp [h]
    · simp [hk]

/-- What is found under a key after an entry is taken out. -/
@[simp] theorem get?_erase (t : Table α) (k key : String) :
    (t.erase k).get? key = if k = key then none else t.get? key := by
  induction t with
  | nil => simp [erase, get?]
  | cons e t ih =>
    obtain ⟨k', v⟩ := e
    unfold erase at ih ⊢
    simp only [List.filter_cons]
    by_cases h : k' = k
    · subst h
      simp only [ne_eq, not_true_eq_false, decide_false, Bool.false_eq_true, if_false, ih, get?]
      split <;> rfl
    · simp only [ne_eq, h, not_false_eq_true, decide_true, if_true, get?, ih]
      by_cases hk : k' = key
      · subst hk
        simp [Ne.symm h]
      · simp [hk]

end Table

end Bestiary
