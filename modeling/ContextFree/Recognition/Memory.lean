/-!
# Memory

A chart is given its memory before it is filled.  The sizes that it asks for are words of 64 bits,
and whether a machine can spare that much is for the machine to say.
-/

namespace ContextFree

/-- The product of two words, if it is a word. -/
def mul? (m n : Nat) : Option Nat := if m * n < UInt64.size then some (m * n) else none

theorem mul?_eq_some {m n : Nat} (h : m * n < UInt64.size) : mul? m n = some (m * n) := if_pos h

theorem mul?_eq_none {m n : Nat} (h : ¬m * n < UInt64.size) : mul? m n = none := if_neg h

/-- How a machine answers requests for memory.  It is asked for the bits of a chart first, and then
for the reasons that go with them. -/
structure Memory where
  /-- There is memory for an array of that many words. -/
  grantsWords : Nat → Bool
  /-- With that many words granted, there is memory for so many cells of reasons. -/
  grantsCells : Nat → Nat → Bool

namespace Memory

/-- A machine that has so many bytes to spare.  A word takes 8 of them and a cell without any reason
takes 24. -/
def ofBytes (bytes : Nat) : Memory where
  grantsWords words := 8 * words ≤ bytes
  grantsCells words cells := 8 * words + 24 * cells ≤ bytes

/-- A machine whose addresses have 47 bits. -/
def standard : Memory := .ofBytes (1 <<< 47)

end Memory

end ContextFree
