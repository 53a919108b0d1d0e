import ContextFree.Grammar.Basic

/-!
# Printing a grammar

The printed text gives each run of productions with one left-hand side a line of its own.
Terminals are quoted, so none is taken for a non-terminal of the same name.  Two header lines come
first where they are needed: `%start`, unless the start symbol has the default name, and
`%nonterm`, unless the rules by themselves number the non-terminals as the grammar does.
-/

namespace ContextFree.Notation

/-- A quoted terminal; the single quote itself stands in double quotes. -/
def quote (c : Char) : String :=
  if c = '\'' then "\"'\"" else "'" ++ c.toString ++ "'"

/-- A symbol of a right-hand side. -/
def printSymbol (g : Grammar) : Symbol → String
  | .term c => quote c
  | .nonterm a => g.name a

/-- A right-hand side, each symbol after a space. -/
def printAlternative (g : Grammar) (rhs : List Symbol) : String :=
  String.join (rhs.map (" " ++ printSymbol g ·))

/-- A line of alternatives. -/
def printRule (g : Grammar) (lhs : NonTerm) (alternatives : List (List Symbol)) : String :=
  g.name lhs ++ " ->" ++ " |".intercalate (alternatives.map (printAlternative g))

/-- Counts on wherever the next number comes up.  There is no result if one that lies beyond the
next comes up first. -/
def countOn (next : Nat) : List Nat → Option Nat
  | [] => some next
  | i :: is =>
    if i = next then countOn (next + 1) is
    else if next < i then none
    else countOn next is

/-- The left-hand sides, one after the other, count up all non-terminals. -/
def numberedByRules (g : Grammar) : Bool :=
  countOn 0 (g.productions.map (·.lhs.index)) = some g.size

/-- The line that names the start symbol, where it is needed. -/
def startLines (g : Grammar) : List String :=
  if g.name g.start = Grammar.defaultStart then [] else ["%start " ++ g.name g.start]

/-- The line that declares the non-terminals, where it is needed. -/
def declarationLines (g : Grammar) : List String :=
  if numberedByRules g then []
  else ["%nonterm" ++ String.join (g.nonterms.map (" " ++ g.name ·))]

/-- The runs of productions with one left-hand side. -/
def ruleGroups (g : Grammar) : List (List Production) :=
  g.productions.splitBy (·.lhs == ·.lhs)

/-- The line of a run of productions. -/
def groupLines (g : Grammar) : List Production → List String
  | [] => []
  | p :: ps => [printRule g p.lhs ((p :: ps).map (·.rhs))]

/-- The lines of the printed text. -/
def printLines (g : Grammar) : List String :=
  startLines g ++ declarationLines g ++ (ruleGroups g).flatMap (groupLines g)

/-- The text of a grammar. -/
def print (g : Grammar) : String := String.join ((printLines g).map (· ++ "\n"))

end ContextFree.Notation
