import Bestiary.Data.Basic

/-!
# Overlaying values

A table laid over a table merges key by key, at every depth. Everything else replaces what it is
laid over, lists included: whoever changes one item repeats the list.

* `Value.merge` lays one value over another; `Value.overlay` lays entries over a table.
* `Value.at?` follows keys down a value.
-/

namespace Bestiary.Value

mutual

/-- `override` laid over an entry that may be absent. -/
def mergeOnto : Option Value → Value → Value
  | some (.table base), .table entries => .table (overlay base entries)
  | _, override => override

/-- Entries laid over a table, one after the other. New keys go where a new key goes. -/
def overlay : Table Value → List (String × Value) → Table Value
  | base, [] => base
  | base, (k, v) :: rest => overlay (base.set k (mergeOnto (base.get? k) v)) rest

end

/-- `override` laid over `base`. -/
def merge (base override : Value) : Value := mergeOnto (some base) override

/-- The value reached from `v` by following keys; none when a step is missing. -/
def at? : Value → List String → Option Value
  | v, [] => some v
  | v, key :: keys => (v.field? key).bind (at? · keys)

@[simp] theorem merge_table (base entries : Table Value) :
    merge (.table base) (.table entries) = .table (overlay base entries) := by
  simp [merge, mergeOnto]

theorem overlay_cons (base : Table Value) (k : String) (v : Value) (rest : Table Value) :
    overlay base ((k, v) :: rest) = overlay (base.set k (mergeOnto (base.get? k) v)) rest := by
  simp [overlay]

end Bestiary.Value
