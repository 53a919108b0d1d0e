import ContextFree.Cyk.Reasons
import ContextFree.Recognition.Memory
import ContextFree.Recognition.Verdict

/-!
# Recognition tables

A table has a cell for each pair of input positions.  A cell holds a set of non-terminals, kept as
a row of bits, and for each of them the last reason that was given for it.

The bits of all cells lie in one array of 64-bit words: cell `(first, last)` of a table of width
`n` is number `first * n + last`, it owns the same number of words as every other cell, and
non-terminal `a` is bit `a % 64` of its word `a / 64`.
-/

namespace ContextFree.Cyk

/-- The cells of a square of positions. -/
structure Table where
  /-- The number of input positions. -/
  width : Nat
  /-- The number of non-terminals. -/
  symbolCount : Nat
  bits : Array UInt64
  reasons : Array Reasons
deriving Repr

namespace Table

/-! ## Addresses -/

/-- The number of words that a cell for that many non-terminals owns. -/
def wordsFor (symbolCount : Nat) : Nat := (symbolCount + 63) / 64

/-- The number of a cell in a table of a given width. -/
def cell (width : Nat) (s : Span) : Nat := s.first * width + s.last

/-- The word that holds the bit of a non-terminal in a cell. -/
def word (width symbolCount : Nat) (s : Span) (a : NonTerm) : Nat :=
  cell width s * wordsFor symbolCount + a.index / 64

/-- The bit of a non-terminal in its word. -/
def mask (a : NonTerm) : UInt64 := 1 <<< UInt64.ofNat (a.index % 64)

/-! ## Reading and writing -/

/-- The table without any entry. -/
def empty (width symbolCount : Nat) : Table where
  width := width
  symbolCount := symbolCount
  bits := .replicate (width * width * wordsFor symbolCount) 0
  reasons := .replicate (width * width) .empty

/-- Asks for the memory of a table and clears it.  A table whose cells or words are too many to be
counted is not asked for. -/
def allocate (memory : Memory) (width symbolCount : Nat) : Except Fault Table := do
  let some cells := mul? width width | throw (.chartTooLarge width)
  let some words := mul? cells (wordsFor symbolCount) | throw (.chartTooLarge width)
  unless memory.grantsWords words do throw (.allocation cells)
  unless memory.grantsCells words cells do throw (.allocation cells)
  return ⟨width, symbolCount, .replicate words 0, .replicate cells .empty⟩

/-- The non-terminal is in the cell of the span.  A span out of bounds has no cell, and a foreign
non-terminal is in none. -/
def contains (t : Table) (s : Span) (a : NonTerm) : Bool :=
  decide (s.Within t.width) && decide (a.index < t.symbolCount) &&
    t.bits.getD (word t.width t.symbolCount s a) 0 &&& mask a != 0

/-- The non-terminals in the cell of a span, in ascending order. -/
def symbols (t : Table) (s : Span) : List NonTerm :=
  ((List.range t.symbolCount).map NonTerm.mk).filter (t.contains s ·)

/-- The last reason that was given for an entry. -/
def backpointer? (t : Table) (s : Span) (a : NonTerm) : Option Backpointer :=
  if s.Within t.width then (t.reasons.getD (cell t.width s) .empty).lookup a else none

/-- Puts a non-terminal into the cell of a span, for a reason that replaces the previous one. -/
def record : Table → Span → NonTerm → Backpointer → Table
  | ⟨width, symbolCount, bits, reasons⟩, s, a, b =>
    ⟨width, symbolCount, bits.modify (word width symbolCount s a) (· ||| mask a),
      reasons.modify (cell width s) (·.insert a b)⟩

@[simp] theorem width_record (t : Table) (s : Span) (a : NonTerm) (b : Backpointer) :
    (t.record s a b).width = t.width := rfl

@[simp] theorem symbolCount_record (t : Table) (s : Span) (a : NonTerm) (b : Backpointer) :
    (t.record s a b).symbolCount = t.symbolCount := rfl

end Table

end ContextFree.Cyk
