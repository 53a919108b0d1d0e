/-!
# Spans

A span is an inclusive range of input positions.
-/

namespace ContextFree.Cyk

/-- The positions `first`, …, `last`. -/
structure Span where
  first : Nat
  last : Nat
deriving DecidableEq, Repr

namespace Span

/-- The number of positions, zero for a reversed span. -/
def length (s : Span) : Nat := s.last + 1 - s.first

/-- A span that is not reversed and ends before position `n`. -/
def Within (s : Span) (n : Nat) : Prop := s.first ≤ s.last ∧ s.last < n

instance (s : Span) (n : Nat) : Decidable (s.Within n) :=
  inferInstanceAs (Decidable (_ ∧ _))

/-- A span, as in `[0, 3]`. -/
def text (s : Span) : String := s!"[{s.first}, {s.last}]"

end Span

end ContextFree.Cyk
