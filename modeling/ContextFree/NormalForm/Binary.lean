import ContextFree.NormalForm.Fresh
import ContextFree.NormalForm.UnitClosure

/-!
# Binary form

In binary form every production is `A → a` or `A → B C`.  A grammar is brought into it in three
ways, taken together for each non-terminal `A`:

* a unit production is dropped, and `A` inherits the other productions of its unit closure;
* in a right-hand side of two symbols or more, a terminal `c` becomes a fresh non-terminal with the
  single production `X → c`, shared by all its occurrences;
* a right-hand side of more than two symbols is folded to the right: `A → B C D` becomes `A → B X`
  and `X → C D` for a fresh `X`.

The non-terminals of the grammar keep their numbers, and the fresh ones come after them.
-/

namespace ContextFree

/-- What has been made of a grammar on the way to its binary form. -/
structure Binarization where
  names : List String
  /-- The number of the last fresh name. -/
  counter : Nat := 0
  productions : List Production := []
  /-- The non-terminals that stand for terminals. -/
  lifted : List (Char × NonTerm) := []
  /-- The pairs of a left-hand side and a lifted right-hand side that were dealt with. -/
  seen : List (NonTerm × List Symbol) := []
deriving Repr

namespace Binarization

/-- A fresh non-terminal. -/
def fresh (st : Binarization) : NonTerm × Binarization :=
  let k := freshNumber st.names (st.counter + 1)
  (⟨st.names.length⟩, { st with names := st.names ++ [freshName k], counter := k })

/-- Adds a production. -/
def emit (st : Binarization) (lhs : NonTerm) (rhs : List Symbol) : Binarization :=
  { st with productions := st.productions ++ [⟨lhs, rhs⟩] }

/-- The non-terminal that stands for a terminal. -/
def lift (st : Binarization) (c : Char) : NonTerm × Binarization :=
  match st.lifted.lookup c with
  | some a => (a, st)
  | none =>
    let (a, st) := st.fresh
    (a, { st with lifted := (c, a) :: st.lifted }.emit a [.term c])

/-- Puts non-terminals in the places of terminals. -/
def liftAll (st : Binarization) : List Symbol → List Symbol × Binarization
  | [] => ([], st)
  | .nonterm a :: rhs =>
    let (rhs, st) := st.liftAll rhs
    (.nonterm a :: rhs, st)
  | .term c :: rhs =>
    let (a, st) := st.lift c
    let (rhs, st) := st.liftAll rhs
    (.nonterm a :: rhs, st)

/-- Folds a production of more than two symbols to the right. -/
def fold (st : Binarization) (lhs : NonTerm) : List Symbol → Binarization
  | s :: s' :: s'' :: rhs =>
    let (helper, st) := st.fresh
    (st.emit lhs [s, .nonterm helper]).fold helper (s' :: s'' :: rhs)
  | rhs => st.emit lhs rhs

/-- Adds the binary form of a production that is not a unit production, unless it was added
before. -/
def add (st : Binarization) (lhs : NonTerm) (rhs : List Symbol) : Binarization :=
  let (rhs, st) := if rhs.length = 1 then (rhs, st) else st.liftAll rhs
  if (lhs, rhs) ∈ st.seen then st
  else { st with seen := (lhs, rhs) :: st.seen }.fold lhs rhs

end Binarization

namespace Grammar

/-- The right-hand sides that a non-terminal has or inherits, without the unit productions. -/
def inherited (g : Grammar) (a : NonTerm) : List (List Symbol) :=
  (g.unitClosure a).flatMap fun b ↦ (g.alternatives b).filterMap fun p ↦
    if (g.production p).unit?.isSome then none else some (g.production p).rhs

/-- The steps to binary form. -/
def binarization (g : Grammar) : Binarization :=
  g.nonterms.foldl (fun st a ↦ (g.inherited a).foldl (·.add a) st) ⟨g.names, 0, [], [], []⟩

/-- An equivalent grammar in binary form, its productions sorted by their left-hand sides. -/
def binarize (g : Grammar) : Grammar where
  names := g.binarization.names
  productions := g.binarization.productions.mergeSort (·.lhs.index ≤ ·.lhs.index)
  start := g.start

end Grammar

end ContextFree
