/-!
# Why a grammar cannot be built

The causes, and the one place where they are put into words.
-/

namespace ContextFree

/-- Why a builder or a text gives no grammar.  Lines are counted from one. -/
inductive GrammarError where
  | emptyLhs
  | emptyName
  | emptyProduction (lhs : String)
  | malformedRule (line : Nat) (text : String)
  | unterminatedQuote (line : Nat)
deriving DecidableEq, Repr

/-- The error in words. -/
def GrammarError.message : GrammarError → String
  | .emptyLhs => "a rule has an empty left-hand side"
  | .emptyName => "a declared non-terminal has an empty name"
  | .emptyProduction lhs => s!"production for `{lhs}` has no symbols"
  | .malformedRule line text => s!"line {line}: expected `A -> ...`, found `{text}`"
  | .unterminatedQuote line => s!"line {line}: unterminated quote"

end ContextFree
