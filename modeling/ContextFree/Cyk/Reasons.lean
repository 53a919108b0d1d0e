import ContextFree.Cyk.Span
import ContextFree.Grammar.Basic

/-!
# Reasons

A cell keeps a reason for each of its non-terminals, and a later reason takes the place of an
earlier one.  All there is to know of how they are kept is what is found where nothing was kept, and
what is found after one more reason: `lookup_empty` and `lookup_insert`.
-/

namespace ContextFree.Cyk

/-- Why a non-terminal covers a span: a production `A → a` on a span of one position, or a
production `A → B C` of which `B` covers the span up to the split and `C` the rest. -/
inductive Backpointer where
  | terminal (production : ProdId)
  | binary (production : ProdId) (split : Nat)
deriving DecidableEq, Repr

namespace Backpointer

/-- The production that was applied. -/
def production : Backpointer → ProdId
  | .terminal p | .binary p _ => p

/-- The part of the span that the first symbol covers. -/
def left? (s : Span) : Backpointer → Option Span
  | .terminal _ => none
  | .binary _ k => some ⟨s.first, k⟩

/-- The part of the span that the second symbol covers. -/
def right? (s : Span) : Backpointer → Option Span
  | .terminal _ => none
  | .binary _ k => some ⟨k + 1, s.last⟩

end Backpointer

/-- The reasons kept for one cell: at most one for each non-terminal. -/
structure Reasons where
  entries : List (NonTerm × Backpointer)
deriving Repr

namespace Reasons

/-- No reason at all. -/
def empty : Reasons := ⟨[]⟩

/-- The reason kept for a non-terminal. -/
def lookup (rs : Reasons) (a : NonTerm) : Option Backpointer := rs.entries.lookup a

/-- Puts an entry in the place of the one of its non-terminal, or behind all others. -/
def replace (a : NonTerm) (b : Backpointer) :
    List (NonTerm × Backpointer) → List (NonTerm × Backpointer)
  | [] => [(a, b)]
  | (a', b') :: es => if a' = a then (a, b) :: es else (a', b') :: replace a b es

/-- Keeps a reason for a non-terminal. -/
def insert (rs : Reasons) (a : NonTerm) (b : Backpointer) : Reasons := ⟨replace a b rs.entries⟩

@[simp] theorem lookup_empty (a : NonTerm) : empty.lookup a = none := rfl

theorem lookup_insert (rs : Reasons) (a : NonTerm) (b : Backpointer) (a' : NonTerm) :
    (rs.insert a b).lookup a' = if a' = a then some b else rs.lookup a' := by
  obtain ⟨es⟩ := rs
  simp only [lookup, insert]
  induction es with
  | nil =>
    by_cases h : a' = a <;> simp [replace, h, List.lookup_cons, beq_eq_false_iff_ne.2]
  | cons e es ih =>
    obtain ⟨a'', b''⟩ := e
    by_cases h : a'' = a
    · subst h
      by_cases h' : a' = a'' <;> simp [replace, h', List.lookup_cons, beq_eq_false_iff_ne.2]
    · rw [replace, if_neg h, List.lookup_cons, List.lookup_cons, ih]
      by_cases h' : a' = a''
      · have hne : a' ≠ a := h' ▸ h
        simp [h', h]
      · simp [beq_eq_false_iff_ne.2 h']

end Reasons

end ContextFree.Cyk
