import ContextFree.Notation.Token

/-!
# Lines of the notation

A line is trimmed and then says one of four things.  It is blank or a comment, which opens with
`#`; it names the start symbol, `%start S`; it declares non-terminals, `%nonterm A B`; or it gives
the alternatives of a non-terminal, `A -> B c | "d"`, where `::=` may stand for the arrow.
-/

namespace ContextFree.Notation

open ContextFree.Text

/-- What a line says. -/
inductive Line where
  | empty
  | start (name : String)
  | declare (names : List String)
  | rule (lhs : String) (alternatives : List (List RawSymbol))
deriving DecidableEq, Repr

/-- What follows an arrow, if the text begins with one. -/
def afterArrow? : List Char → Option (List Char)
  | '-' :: '>' :: s => some s
  | ':' :: ':' :: '=' :: s => some s
  | _ => none

/-- The two sides of a rule.  The left-hand side is the shortest run of characters, at least one
and none of them blank, that is followed by an arrow; blanks may stand before the arrow. -/
def splitRule? : List Char → Option (List Char × List Char)
  | [] => none
  | c :: s =>
    if isBlank c then none
    else match afterArrow? (trimStart s) with
      | some rhs => some ([c], rhs)
      | none => (splitRule? s).map fun (lhs, rhs) ↦ (c :: lhs, rhs)

/-- Reads a trimmed line that is a rule.  A quote that is never closed is found before an empty
alternative. -/
def Line.ruleOfTrimmed (number : Nat) (s : List Char) : Except GrammarError Line :=
  match splitRule? s with
  | none => throw (.malformedRule number (String.ofList s))
  | some (lhs, rhs) =>
    match alternatives? rhs with
    | none => throw (.unterminatedQuote number)
    | some as =>
      if [] ∈ as then throw (.emptyProduction (String.ofList lhs))
      else return .rule (String.ofList lhs) as

/-- Reads a trimmed line of a given number. -/
def Line.ofTrimmed (number : Nat) (s : List Char) : Except GrammarError Line :=
  if s = [] ∨ s.head? = some '#' then return .empty
  else match (fields s).map String.ofList with
    | ["%start", name] => return .start name
    | "%nonterm" :: name :: names => return .declare (name :: names)
    | _ => ruleOfTrimmed number s

/-- Reads a line of a given number. -/
def Line.read (number : Nat) (s : List Char) : Except GrammarError Line :=
  ofTrimmed number (trim s)

/-- The steps of building that a line stands for. -/
def Line.steps : Line → List BuilderStep
  | .empty => []
  | .start name => [.start name]
  | .declare names => names.map .nonterm
  | .rule lhs as => as.map (.production lhs)

end ContextFree.Notation
