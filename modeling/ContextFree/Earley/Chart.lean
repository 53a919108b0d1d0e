import ContextFree.Earley.Run
import ContextFree.Recognition.Basic

/-!
# Left-to-right recognition

The chart of an input has an item set for every position, the one behind the end included.  The
input is accepted if the last set holds a completed production of the start symbol that began at
the first position; the empty input never is.
-/

namespace ContextFree.Earley

/-- The item sets of an input. -/
structure Chart where
  grammar : Grammar
  input : List Char
  sets : Array ItemSet
deriving Repr

namespace Chart

/-- The length of the input. -/
def length (c : Chart) : Nat := c.input.length

/-- The set of a position. -/
def set? (c : Chart) (position : Nat) : Option ItemSet := c.sets[position]?

/-- The item says that the start symbol derives everything up to its position. -/
def IsFinal (g : Grammar) (item : Item) : Prop :=
  item.origin = 0 ∧ item.IsComplete g ∧ item.lhs g = g.start

instance (g : Grammar) (item : Item) : Decidable (IsFinal g item) :=
  inferInstanceAs (Decidable (_ ∧ _))

/-- The input is not empty and the start symbol derives it. -/
def accepts (c : Chart) : Bool :=
  !c.input.isEmpty && (c.set? c.length).any (·.items.any (IsFinal c.grammar ·))

/-- The sets, each under a line with its position. -/
def text (c : Chart) : String :=
  String.join (c.sets.toList.zipIdx.map fun (s, i) ↦ s!"chart[{i}]:\n" ++ s.text c.grammar)

end Chart

/-- Looks for the input from left to right. -/
def recognize (g : Grammar) (input : List Char) (limits : Limits) : Recognition Chart :=
  match limits.exceededBy input.length with
  | some e => .finish (.exhausted e) none []
  | none =>
    match Run.overInput g limits.maxStates input with
    | .error h => .finish (.exhausted h.cause) (some ⟨g, input, h.run.sets⟩) h.run.events.reverse
    | .ok run =>
      let c : Chart := ⟨g, input, run.sets⟩
      .finish (.ofBool c.accepts) (some c) run.events.reverse

end ContextFree.Earley
