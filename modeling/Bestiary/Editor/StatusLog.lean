/-!
# The status log

The latest messages of a session, oldest first. When the log is full, the oldest message makes room.
-/

namespace Bestiary

/-- How a message is meant. -/
inductive Level where
  | success
  | warning
  | error
  deriving DecidableEq

/-- The name of a level. -/
def Level.name : Level → String
  | .success => "success"
  | .warning => "warning"
  | .error => "error"

/-- A message in the log. -/
structure Status where
  level : Level
  message : String
  deriving DecidableEq

/-- The latest messages, oldest first. -/
structure StatusLog where
  /-- How many messages are kept. -/
  limit : Nat
  entries : List Status

namespace StatusLog

/-- How many messages are kept unless something else is asked for. -/
def defaultLimit : Nat := 50

/-- A log without messages. -/
def empty (limit : Nat) : StatusLog := ⟨limit, []⟩

/-- The last `n` items of a list. -/
def lastItems {α : Type} (n : Nat) (items : List α) : List α := items.drop (items.length - n)

/-- The log with one more message. -/
def push (log : StatusLog) (level : Level) (message : String) : StatusLog :=
  { log with entries := lastItems log.limit (log.entries ++ [⟨level, message⟩]) }

/-- The log without its messages. -/
def clear (log : StatusLog) : StatusLog := empty log.limit

/-- The latest message. -/
def last? (log : StatusLog) : Option Status := log.entries.getLast?

/-- The number of messages. -/
def size (log : StatusLog) : Nat := log.entries.length

theorem length_lastItems {α : Type} (n : Nat) (items : List α) :
    (lastItems n items).length = min n items.length := by
  simp only [lastItems, List.length_drop]
  omega

/-- The last items are found among the last items of what comes first and all that follows. -/
theorem lastItems_append {α : Type} (n : Nat) (items more : List α) :
    lastItems n (lastItems n items ++ more) = lastItems n (items ++ more) := by
  unfold lastItems
  simp only [List.length_append, List.length_drop, List.drop_append, List.drop_drop]
  congr 2 <;> omega

/-- The message that was pushed is the latest one. -/
theorem last?_push {log : StatusLog} (h : 0 < log.limit) (level : Level) (message : String) :
    (log.push level message).last? = some ⟨level, message⟩ := by
  unfold last? push lastItems
  rw [List.getLast?_drop, if_neg, List.getLast?_concat]
  simp only [List.length_append, List.length_singleton]
  omega

/-- A log never holds more than its limit after a message. -/
theorem size_push_le (log : StatusLog) (level : Level) (message : String) :
    (log.push level message).size ≤ log.limit := by
  simp only [size, push, length_lastItems]
  exact Nat.min_le_left _ _

end StatusLog

end Bestiary
