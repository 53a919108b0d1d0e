import ContextFree.Recognition.Verdict

/-!
# Limits

Bounds that keep a recognizer from running away.
-/

namespace ContextFree

/-- The longest input a recognizer looks at, and the most items that one item set may hold. -/
structure Limits where
  maxLength : Nat := 1000
  maxStates : Nat := 10000
deriving DecidableEq, Repr

/-- The limit that an input of a given length exceeds. -/
def Limits.exceededBy (l : Limits) (length : Nat) : Option Exhausted :=
  if l.maxLength < length then some (.inputTooLong length l.maxLength) else none

end ContextFree
