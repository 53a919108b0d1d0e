/-!
# Numbers in text

An unsigned number is written with decimal digits, after at most one plus sign, and fits into 64
bits.
-/

namespace ContextFree.Text

/-- The value of a text of decimal digits, at least one. -/
def digits? (s : List Char) : Option Nat :=
  if s ≠ [] ∧ s.all Char.isDigit then
    some (s.foldl (fun n c ↦ 10 * n + (c.toNat - '0'.toNat)) 0)
  else none

/-- The value of a text of digits that a plus sign may precede. -/
def signedDigits? : List Char → Option Nat
  | '+' :: s => digits? s
  | s => digits? s

/-- The value of the text of an unsigned number. -/
def unsigned? (s : List Char) : Option Nat := (signedDigits? s).filter (· < UInt64.size)

end ContextFree.Text
