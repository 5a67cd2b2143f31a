import Bestiary.Data.Basic

/-!
# Equality up to the order of keys

Two values are the same when they hold the same content: the order of items counts, the order of
keys does not.

* `Value.same` decides it; `Value.agree` extends it to values that may be absent.
-/

namespace Bestiary.Value

mutual

/-- Whether two values are equal up to the order of keys. -/
def same : Value → Value → Bool
  | .text a, .text b => a = b
  | .number a, .number b => a = b
  | .flag a, .flag b => a = b
  | .list a, .list b => sameItems a b
  | .table a, .table b => a.length = b.length && sameEntries a b
  | _, _ => false

/-- Whether two lists are equal item by item. -/
def sameItems : List Value → List Value → Bool
  | [], [] => true
  | a :: as, b :: bs => same a b && sameItems as bs
  | _, _ => false

/-- Whether every entry has its equal in `t`. -/
def sameEntries : List (String × Value) → Table Value → Bool
  | [], _ => true
  | (k, v) :: rest, t =>
    (match t.get? k with
      | some w => same v w
      | none => false) && sameEntries rest t

end

/-- Equality of values that may be absent. -/
def agree : Option Value → Option Value → Bool
  | some a, some b => same a b
  | none, none => true
  | _, _ => false

end Bestiary.Value
