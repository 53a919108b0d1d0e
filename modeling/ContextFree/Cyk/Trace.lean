import ContextFree.Cyk.Chart
import ContextFree.Grammar.Text
import ContextFree.Language.SententialForm

/-!
# Derivations read from a chart

The reasons in a chart spell out a derivation for each of its entries: the production of the entry,
then everything under its left part, then everything under its right part.  Taken as leftmost
rewritings from the start symbol, these steps lead back to the input.
-/

namespace ContextFree.Cyk

open SententialForm

/-- One application of a production. -/
structure Step where
  lhs : NonTerm
  production : ProdId
deriving DecidableEq, Repr

namespace Step

/-- Rewrites the leftmost non-terminal of a form, if that is the step's own left-hand side and the
left-hand side of its production. -/
def onLeftmost? (g : Grammar) (form : List Symbol) (s : Step) : Option (List Symbol) :=
  let p := g.production s.production
  match leftmost? form with
  | none => none
  | some (front, a, back) =>
    if p.lhs = s.lhs ∧ a = s.lhs then some (front ++ p.rhs ++ back) else none

/-- The production of a step, as in `A -> B c`. -/
def text (g : Grammar) (s : Step) : String := (g.production s.production).text g

end Step

/-- Rewrites a form by each step in turn. -/
def rewrite? (g : Grammar) (form : List Symbol) (steps : List Step) : Option (List Symbol) :=
  steps.foldlM (Step.onLeftmost? g) form

/-- The word to which the steps lead from the start symbol. -/
def replay? (g : Grammar) (steps : List Step) : Option (List Char) :=
  (rewrite? g [.nonterm g.start] steps).bind word?

/-- The text of the steps, a line for each. -/
def stepsText (g : Grammar) (steps : List Step) : String :=
  String.join (steps.map (·.text g ++ "\n"))

namespace Chart

/-- How a non-terminal came to cover a span, in pre-order; nothing if it does not cover it.  Only
splits inside the span are followed, and the table holds no others. -/
def trace (c : Chart) (s : Span) (a : NonTerm) : List Step :=
  match c.backpointer? s a with
  | none => []
  | some (.terminal p) => [⟨a, p⟩]
  | some (.binary p k) =>
    ⟨a, p⟩ ::
      match (c.grammar.production p).rhs with
      | [.nonterm l, .nonterm r] =>
        if s.first ≤ k ∧ k < s.last then c.trace ⟨s.first, k⟩ l ++ c.trace ⟨k + 1, s.last⟩ r
        else []
      | _ => []
termination_by s.length
decreasing_by all_goals simp only [Span.length]; omega

/-- The trace of the start symbol over the whole input. -/
def derivation (c : Chart) : List Step :=
  match c.rootSpan? with
  | some s => c.trace s c.grammar.start
  | none => []

end Chart

end ContextFree.Cyk
