import ContextFree.Notation.Line
import ContextFree.Text.Lines

/-!
# Reading a grammar

The lines of a text are read one by one; the first one that cannot be read decides the error.
Otherwise the steps they stand for are taken in order.
-/

namespace ContextFree.Notation

open ContextFree.Text

/-- Reads numbered lines. -/
def readLines (number : Nat) : List (List Char) → Except GrammarError (List Line)
  | [] => return []
  | l :: ls => do
    let line ← Line.read number l
    return line :: (← readLines (number + 1) ls)

/-- A line is read before the rest. -/
theorem readLines_cons_eq_ok_iff {number : Nat} {l : List Char} {ls : List (List Char)}
    {out : List Line} : readLines number (l :: ls) = .ok out ↔
      ∃ line rest, Line.read number l = .ok line ∧ readLines (number + 1) ls = .ok rest ∧
        out = line :: rest := by
  rw [readLines]
  cases Line.read number l with
  | error e => simp [bind, Except.bind]
  | ok line =>
    cases readLines (number + 1) ls <;> simp [bind, Except.bind, pure, Except.pure, eq_comm]

/-- The first error counts. -/
theorem readLines_cons_eq_error_iff {number : Nat} {l : List Char} {ls : List (List Char)}
    {e : GrammarError} : readLines number (l :: ls) = .error e ↔
      Line.read number l = .error e ∨
        ∃ line, Line.read number l = .ok line ∧ readLines (number + 1) ls = .error e := by
  rw [readLines]
  cases Line.read number l with
  | error e => simp [bind, Except.bind]
  | ok line =>
    cases readLines (number + 1) ls <;> simp [bind, Except.bind, pure, Except.pure]

/-- The lines of a text, counted from one. -/
def linesOf (text : String) : Except GrammarError (List Line) :=
  readLines 1 (lines text.toList)

/-- The grammar of a text. -/
def read (text : String) : Except GrammarError Grammar := do
  (Builder.ofSteps ((← linesOf text).flatMap Line.steps)).build

end ContextFree.Notation
