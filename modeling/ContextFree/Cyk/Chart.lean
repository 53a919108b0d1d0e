import ContextFree.Cyk.Table
import ContextFree.Recognition.Basic

/-!
# Bottom-up recognition

The chart of an input holds, for every span, the non-terminals that derive the span by productions
of the two binary shapes; productions of any other shape take no part.

Spans of one position are filled first, from left to right.  Longer spans follow by length, then by
first position; their splits ascend, and at each split the productions are tried in the order of
their left-hand sides and then of their numbers.  So the reason that an entry keeps is the one of
its largest split, and there of the last production.
-/

namespace ContextFree.Cyk

/-! ## Productions of the two shapes -/

/-- A production `A → a`. -/
structure TerminalRule where
  lhs : NonTerm
  production : ProdId
  terminal : Char
deriving DecidableEq, Repr

/-- A production `A → B C`. -/
structure BinaryRule where
  lhs : NonTerm
  production : ProdId
  left : NonTerm
  right : NonTerm
deriving DecidableEq, Repr

/-- The productions `A → a` in the order in which they are tried. -/
def terminalRules (g : Grammar) : List TerminalRule :=
  g.nonterms.flatMap fun a ↦ (g.alternatives a).filterMap fun p ↦
    match (g.production p).rhs with
    | [.term c] => some ⟨a, p, c⟩
    | _ => none

/-- The productions `A → B C` in the order in which they are tried. -/
def binaryRules (g : Grammar) : List BinaryRule :=
  g.nonterms.flatMap fun a ↦ (g.alternatives a).filterMap fun p ↦
    match (g.production p).rhs with
    | [.nonterm b, .nonterm c] => some ⟨a, p, b, c⟩
    | _ => none

/-! ## Filling the table -/

/-- A table and the events of its filling, the latest first. -/
structure Filling where
  table : Table
  events : List Event
deriving Repr

namespace Filling

/-- Records an entry, and reports it if it is new. -/
def record : Filling → Span → NonTerm → Backpointer → Filling
  | ⟨table, events⟩, s, a, b =>
    if table.contains s a then ⟨table.record s a b, events⟩
    else ⟨table.record s a b, .cellFilled s a :: events⟩

/-- Fills the cell of one position. -/
def fillPosition (rules : List TerminalRule) (f : Filling) : Char × Nat → Filling
  | (c, i) => rules.foldl (fun f r ↦
      if r.terminal = c then f.record ⟨i, i⟩ r.lhs (.terminal r.production) else f) f

/-- Fills the cell of a span with what its parts at one split give. -/
def fillSplit (rules : List BinaryRule) (s : Span) (f : Filling) (split : Nat) : Filling :=
  rules.foldl (fun f r ↦
    if f.table.contains ⟨s.first, split⟩ r.left && f.table.contains ⟨split + 1, s.last⟩ r.right
    then f.record s r.lhs (.binary r.production split) else f) f

/-- Fills the cell of a span of more than one position. -/
def fillSpan (rules : List BinaryRule) (f : Filling) (s : Span) : Filling :=
  (List.range' s.first (s.last - s.first)).foldl (fillSplit rules s) f

end Filling

/-- The spans of a given length, at least one, of an input of length `n`, from left to right. -/
def spansOfLength (n length : Nat) : List Span :=
  (List.range (n + 1 - length)).map fun first ↦ ⟨first, first + length - 1⟩

/-- The spans of more than one position, the shorter ones first. -/
def longSpans (n : Nat) : List Span := (List.range' 2 (n - 1)).flatMap (spansOfLength n)

/-- Fills a table for an input, from a table without any entry. -/
def fill (g : Grammar) (input : List Char) (table : Table := .empty input.length g.size) :
    Filling :=
  let diagonal := input.zipIdx.foldl (Filling.fillPosition (terminalRules g)) ⟨table, []⟩
  (longSpans input.length).foldl (Filling.fillSpan (binaryRules g)) diagonal

/-! ## Charts -/

/-- The filled table of an input. -/
structure Chart where
  grammar : Grammar
  input : List Char
  table : Table
deriving Repr

namespace Chart

/-- The length of the input. -/
def length (c : Chart) : Nat := c.input.length

/-- The non-terminal covers the span. -/
def contains (c : Chart) (s : Span) (a : NonTerm) : Bool := c.table.contains s a

/-- The non-terminals that cover a span, in ascending order. -/
def symbols (c : Chart) (s : Span) : List NonTerm := c.table.symbols s

/-- Why a non-terminal covers a span. -/
def backpointer? (c : Chart) (s : Span) (a : NonTerm) : Option Backpointer :=
  c.table.backpointer? s a

/-- The span of the whole input, if that is not empty. -/
def rootSpan? (c : Chart) : Option Span :=
  if c.input = [] then none else some ⟨0, c.length - 1⟩

/-- The start symbol covers the whole input, and there is some. -/
def accepts (c : Chart) : Bool :=
  c.rootSpan?.any (c.contains · c.grammar.start)

/-- The names of the non-terminals in a cell, sorted, in braces. -/
def cellText (c : Chart) (s : Span) : String :=
  "\x7b" ++ ", ".intercalate (((c.symbols s).map c.grammar.name).mergeSort (· ≤ ·)) ++ "\x7d"

/-- The cells of the spans of one length. -/
def levelText (c : Chart) (length : Nat) : String :=
  s!"level {length}: " ++ "  ".intercalate ((spansOfLength c.length length).map c.cellText) ++ "\n"

/-- The cells of all spans, a line for each length. -/
def text (c : Chart) : String :=
  String.join ((List.range' 1 c.length).map c.levelText)

end Chart

/-- Looks for the input bottom-up.  There is no chart if the input is too long, and none if there is
no memory for its table. -/
def recognize (g : Grammar) (input : List Char) (limits : Limits) (memory : Memory := .standard) :
    Recognition Chart :=
  match limits.exceededBy input.length with
  | some e => .finish (.exhausted e) none []
  | none =>
    match Table.allocate memory input.length g.size with
    | .error fault => .finish (.fault fault) none []
    | .ok table =>
      let f := fill g input table
      let c : Chart := ⟨g, input, f.table⟩
      .finish (.ofBool c.accepts) (some c) f.events.reverse

end ContextFree.Cyk
