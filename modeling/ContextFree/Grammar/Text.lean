import ContextFree.Grammar.Basic

/-!
# Symbols and productions in words

Texts for people: symbols stand unquoted, separated by single spaces.
-/

namespace ContextFree

/-- A character, or the name of a non-terminal. -/
def Symbol.text (g : Grammar) : Symbol → String
  | .term c => c.toString
  | .nonterm a => g.name a

/-- Symbols, each after a space. -/
def Grammar.spaced (g : Grammar) (ss : List Symbol) : String :=
  String.join (ss.map (" " ++ ·.text g))

/-- A production, as in `A -> B c`. -/
def Production.text (g : Grammar) (p : Production) : String :=
  g.name p.lhs ++ " ->" ++ g.spaced p.rhs

end ContextFree
