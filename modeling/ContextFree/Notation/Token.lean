import ContextFree.Grammar.Builder
import ContextFree.Text.Blank

/-!
# Tokens of a right-hand side

A right-hand side is read from left to right.  Blanks only separate.  A quote opens a run of
characters that goes verbatim up to the next quote of the same kind; a bar ends an alternative;
every other maximal run of characters is a word.
-/

namespace ContextFree.Notation

open ContextFree.Text

/-- A piece of a right-hand side. -/
inductive Token where
  | quoted (s : List Char)
  | bar
  | word (s : List Char)
deriving DecidableEq, Repr

/-- Either of the two quotes. -/
def isQuote (c : Char) : Bool := c = '\'' || c = '"'

/-- A character that can stand in a word. -/
def isWordChar (c : Char) : Bool := !isBlank c && c ≠ '|' && !isQuote c

/-- The text before the first occurrence of `q`, and the text after it. -/
def splitAt? (q : Char) : List Char → Option (List Char × List Char)
  | [] => none
  | c :: s => if c = q then some ([], s) else (splitAt? q s).map fun (l, r) ↦ (c :: l, r)

theorem length_lt_of_splitAt? {q : Char} {s l r : List Char} (h : splitAt? q s = some (l, r)) :
    r.length < s.length := by
  induction s generalizing l with
  | nil => simp [splitAt?] at h
  | cons c s ih =>
    simp only [splitAt?] at h
    split at h
    · simp at h; simp [h.2]
    · obtain ⟨⟨l', r'⟩, h', heq⟩ := Option.map_eq_some_iff.1 h
      simp only [Prod.mk.injEq] at heq
      exact Nat.lt_succ_of_lt (ih (heq.2 ▸ h'))

/-- The tokens of a right-hand side, or nothing if a quote is never closed. -/
def tokens? : List Char → Option (List Token)
  | [] => some []
  | c :: s =>
    if isBlank c then tokens? s
    else if c = '|' then (tokens? s).map (.bar :: ·)
    else if isQuote c then
      match _h : splitAt? c s with
      | none => none
      | some (l, r) => (tokens? r).map (.quoted l :: ·)
    else (tokens? (s.dropWhile isWordChar)).map (.word (c :: s.takeWhile isWordChar) :: ·)
termination_by s => s.length
decreasing_by
  · simp
  · simp
  · exact Nat.lt_succ_of_lt (length_lt_of_splitAt? _h)
  · exact Nat.lt_succ_of_le (length_dropWhile_le _ _)

namespace Token

/-- The symbols that a token other than a bar stands for: one terminal for each quoted character,
or one word. -/
def symbols : Token → List RawSymbol
  | .quoted s => s.map .term
  | .bar => []
  | .word s => [.word (String.ofList s)]

/-- The alternatives between the bars. -/
def alternatives : List Token → List (List RawSymbol)
  | [] => [[]]
  | .bar :: ts => [] :: alternatives ts
  | t :: ts =>
    match alternatives ts with
    | [] => [t.symbols]
    | a :: as => (t.symbols ++ a) :: as

end Token

/-- The alternatives of a right-hand side, or nothing if a quote is never closed. -/
def alternatives? (s : List Char) : Option (List (List RawSymbol)) :=
  (tokens? s).map Token.alternatives

end ContextFree.Notation
