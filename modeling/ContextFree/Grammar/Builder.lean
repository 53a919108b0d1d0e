import ContextFree.Grammar.Error
import ContextFree.Grammar.NameTable

/-!
# Building a grammar step by step

A builder collects declared names, rules and a start name.  Nothing is resolved before `build`,
so a word of a right-hand side may be defined by a later step.

Non-terminals are numbered by first appearance: the declared names come first, then the left-hand
sides, then the names that right-hand sides mark as non-terminals, and the start name last.
-/

namespace ContextFree

/-- A symbol of a right-hand side before it is resolved. -/
inductive RawSymbol where
  | term (c : Char)
  | nonterm (name : String)
  /-- A non-terminal if the word is declared or is a left-hand side, else its characters. -/
  | word (w : String)
deriving DecidableEq, Repr

/-- A right-hand side before it is resolved. -/
inductive RawRhs where
  /-- One symbol for each character: a non-terminal if the character by itself is the name of one
  that is declared or is a left-hand side, else a terminal. -/
  | chars (s : List Char)
  | symbols (s : List RawSymbol)
deriving DecidableEq, Repr

/-- A left-hand side and a right-hand side before they are resolved. -/
structure Rule where
  lhs : String
  rhs : RawRhs
deriving DecidableEq, Repr

/-- One step of building. -/
inductive BuilderStep where
  | start (name : String)
  | nonterm (name : String)
  | rule (lhs : String) (rhs : List Char)
  | production (lhs : String) (rhs : List RawSymbol)
deriving DecidableEq, Repr

/-- What a list of steps has collected. -/
structure Builder where
  start : Option String := none
  declared : List String := []
  rules : List Rule := []
deriving DecidableEq, Repr

namespace Builder

/-! ## Collecting -/

/-- Takes one more step.  The last start name counts. -/
def step (b : Builder) : BuilderStep → Builder
  | .start name => { b with start := some name }
  | .nonterm name => { b with declared := b.declared ++ [name] }
  | .rule lhs rhs => { b with rules := b.rules ++ [⟨lhs, .chars rhs⟩] }
  | .production lhs rhs => { b with rules := b.rules ++ [⟨lhs, .symbols rhs⟩] }

/-- What the steps collect. -/
def ofSteps (steps : List BuilderStep) : Builder := steps.foldl step {}

/-- The words that stand for non-terminals. -/
def defined (b : Builder) : List String := b.declared ++ b.rules.map (·.lhs)

/-- The characters that by themselves stand for non-terminals. -/
def singles (defined : List String) : List Char :=
  defined.filterMap fun name ↦
    match name.toList with
    | [c] => some c
    | _ => none

/-- They are the defined words of one character. -/
theorem mem_singles {defined : List String} {c : Char} :
    c ∈ singles defined ↔ c.toString ∈ defined := by
  have hsingle : ∀ name : String,
      (match name.toList with | [d] => some d | _ => none) = some c ↔ name = c.toString := by
    intro name
    rw [← String.toList_inj, Char.toString_eq_singleton, String.toList_singleton]
    split <;> simp_all
  simp [singles, List.mem_filterMap, hsingle]

/-! ## Resolving -/

/-- A computation that numbers names as it meets them and may fail. -/
abbrev Numbering := StateT NameTable (Except GrammarError)

/-- The number of a name. -/
def number (name : String) : Numbering NonTerm := fun t ↦ .ok (t.intern name)

/-- Numbers a name, which must not be empty. -/
def declare (error : GrammarError) (name : String) : Numbering Unit := do
  if name = "" then throw error
  let _ ← number name

/-- The symbols that a raw symbol stands for. -/
def resolveSymbol (defined : List String) : RawSymbol → Numbering (List Symbol)
  | .term c => pure [.term c]
  | .nonterm name => do return [.nonterm (← number name)]
  | .word w =>
    if w ∈ defined then do return [.nonterm (← number w)]
    else pure (w.toList.map .term)

/-- The symbol that a character stands for. -/
def resolveChar (names : List Char) (c : Char) : Numbering Symbol :=
  if c ∈ names then do return .nonterm (← number c.toString)
  else pure (.term c)

/-- The symbols that a right-hand side stands for. -/
def resolveRhs (defined : List String) : RawRhs → Numbering (List Symbol)
  | .chars s => s.mapM (resolveChar (singles defined))
  | .symbols s => do return (← s.mapM (resolveSymbol defined)).flatten

/-- The production that a rule stands for. -/
def resolveRule (defined : List String) (r : Rule) : Numbering Production := do
  let lhs ← number r.lhs
  let rhs ← resolveRhs defined r.rhs
  if rhs = [] then throw (.emptyProduction r.lhs)
  return ⟨lhs, rhs⟩

/-- The productions and the start symbol, with names numbered in the order of the phases.  An
empty declared name is found before an empty left-hand side, and that before an empty
right-hand side. -/
def resolve (b : Builder) : Numbering (List Production × NonTerm) := do
  b.declared.forM (declare .emptyName)
  b.rules.forM (declare .emptyLhs ·.lhs)
  let productions ← b.rules.mapM (resolveRule b.defined)
  let start ← number (b.start.getD Grammar.defaultStart)
  return (productions, start)

/-- The grammar of a builder. -/
def build (b : Builder) : Except GrammarError Grammar := do
  let ((productions, start), table) ← b.resolve {}
  return ⟨table.names, productions, start⟩

end Builder

end ContextFree
