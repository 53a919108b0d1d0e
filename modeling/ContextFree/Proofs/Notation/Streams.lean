import ContextFree.Notation.Reader
import ContextFree.Proofs.Grammar.Building
import ContextFree.Proofs.Notation.Line
import ContextFree.Proofs.Text.Lines

/-!
# The lines of a text by kind

Reading goes through the lines of a text one by one, but the builder that comes of it can be told
from three streams: the rule lines, the lines that declare non-terminals, and the lines that name
the start symbol, of which the last one counts (`read_eq_ok_iff`).  How the streams are interleaved,
and what stands between them, makes no difference (`read_eq_ok_of_streams`).
-/

namespace ContextFree.Notation

open ContextFree.Text

variable {s : List Char} {ls ls' : List (List Char)} {steps : List BuilderStep}

/-! ## Rule lines -/

/-- The rules of one left-hand side, if no alternative is empty. -/
def alternativeRules? (lhs : List Char) (as : List (List RawSymbol)) : Option (List Rule) :=
  if as.any List.isEmpty then none else some (as.map fun a ↦ ⟨String.ofList lhs, .symbols a⟩)

/-- The rules of a rule line, if it can be read. -/
def lineRules? (s : List Char) : Option (List Rule) := do
  let (lhs, rhs) ← splitRule? s
  alternativeRules? lhs (← alternatives? rhs)

/-- The rules of rule lines, if all of them can be read. -/
def rules? : List (List Char) → Option (List Rule)
  | [] => some []
  | s :: ls => do return (← lineRules? s) ++ (← rules? ls)

theorem rules?_append (ls ls' : List (List Char)) :
    rules? (ls ++ ls') = do return (← rules? ls) ++ (← rules? ls') := by
  induction ls with
  | nil => simp [rules?]
  | cons s ls ih =>
    rw [List.cons_append, rules?, ih, rules?]
    cases lineRules? s <;> cases rules? ls <;> cases rules? ls' <;> simp

/-- A rule line gives rules and nothing else. -/
theorem lineRules?_of_ok {number : Nat} {line : Line}
    (h : Line.ruleOfTrimmed number s = .ok line) :
    lineRules? s = some (line.steps.filterMap (·.rule?)) ∧
      line.steps.filterMap (·.declaredName?) = [] ∧ line.steps.filterMap (·.startName?) = [] := by
  obtain ⟨lhs, rhs, as, hsplit, has, hnil, rfl⟩ := ruleOfTrimmed_eq_ok_iff.1 h
  simp [lineRules?, hsplit, has, alternativeRules?, hnil, Line.steps, BuilderStep.rule?,
    BuilderStep.declaredName?, BuilderStep.startName?]

theorem lineRules?_of_error {number : Nat} {e : GrammarError}
    (h : Line.ruleOfTrimmed number s = .error e) : lineRules? s = none := by
  rcases ruleOfTrimmed_eq_error_iff.1 h with
    ⟨hsplit, -⟩ | ⟨lhs, rhs, hsplit, ⟨has, -⟩ | ⟨as, has, hnil, -⟩⟩
  · simp [lineRules?, hsplit]
  · simp [lineRules?, hsplit, has]
  · simp [lineRules?, hsplit, has, alternativeRules?, hnil]

/-! ## Streams -/

/-- The steps of some lines, told by the kinds of the lines. -/
structure Tells (ls : List (List Char)) (steps : List BuilderStep) : Prop where
  rules : rules? (ls.filter (lineKind · = .rule)) = some (steps.filterMap (·.rule?))
  declared : (ls.filter (lineKind · = .declaration)).flatMap laterFields =
    steps.filterMap (·.declaredName?)
  start : (ls.filter (lineKind · = .start)).map secondField = steps.filterMap (·.startName?)

theorem Tells.cons {number : Nat} {line : Line} (h : Line.ofTrimmed number s = .ok line)
    (hls : Tells ls steps) : Tells (s :: ls) (line.steps ++ steps) := by
  obtain ⟨hrules, hdeclared, hstart⟩ := hls
  rw [ofTrimmed_eq] at h
  cases hkind : lineKind s with
  | skipped | start | declaration =>
    rw [hkind] at h
    cases h
    constructor <;> simpa [hkind, Line.steps, BuilderStep.rule?, BuilderStep.declaredName?,
      BuilderStep.startName?]
  | rule =>
    rw [hkind] at h
    obtain ⟨hrule, hnoDeclared, hnoStart⟩ := lineRules?_of_ok h
    constructor <;> simp [hkind, rules?, hrules, hdeclared, hstart, hrule, hnoDeclared, hnoStart]

theorem tells_of_readLines {number : Nat} {out : List Line}
    (h : readLines number ls = .ok out) : Tells (ls.map trim) (out.flatMap Line.steps) := by
  induction ls generalizing number out with
  | nil =>
    cases h
    constructor <;> rfl
  | cons l ls ih =>
    obtain ⟨line, rest, hline, hrest, rfl⟩ := readLines_cons_eq_ok_iff.1 h
    exact (ih hrest).cons hline

theorem rules?_of_readLines_eq_error {number : Nat} {e : GrammarError}
    (h : readLines number ls = .error e) :
    rules? ((ls.map trim).filter (lineKind · = .rule)) = none := by
  induction ls generalizing number with
  | nil => cases h
  | cons l ls ih =>
    rw [List.map_cons]
    rcases readLines_cons_eq_error_iff.1 h with hline | ⟨line, hline, hrest⟩
    · obtain ⟨hkind, hrule⟩ := ofTrimmed_eq_error_iff.1 hline
      simp [hkind, rules?, lineRules?_of_error hrule]
    · have hnone := ih hrest
      rw [List.filter_cons]
      split
      · rw [rules?, hnone]
        cases lineRules? (trim l) <;> rfl
      · exact hnone

/-! ## Texts -/

/-- The lines of one kind in a text, in their order. -/
def linesOfKind (kind : LineKind) (text : String) : List (List Char) :=
  (trimmedLines text).filter (lineKind · = kind)

/-- What the streams of a text give the builder, if all rule lines can be read. -/
def builderOf? (text : String) : Option Builder :=
  (rules? (linesOfKind .rule text)).map fun rules ↦
    ⟨(linesOfKind .start text).getLast?.map secondField,
      (linesOfKind .declaration text).flatMap laterFields, rules⟩

/-- The steps that the lines stand for give the builder what the streams do. -/
theorem builderOf?_of_linesOf {text : String} {out : List Line} (h : linesOf text = .ok out) :
    builderOf? text = some (Builder.ofSteps (out.flatMap Line.steps)) := by
  obtain ⟨hrules, hdeclared, hstart⟩ := tells_of_readLines h
  rw [builderOf?, linesOfKind, linesOfKind, linesOfKind, trimmedLines_eq, hrules, Option.map_some,
    hdeclared, ← List.getLast?_map, hstart, ← Builder.ofSteps_eq]

/-- Reading a text is building what its streams give. -/
theorem read_eq_ok_iff {text : String} {g : Grammar} :
    read text = .ok g ↔ ∃ b, builderOf? text = some b ∧ b.build = .ok g := by
  rw [read]
  cases hlines : linesOf text with
  | error e =>
    have hnone : rules? (linesOfKind .rule text) = none := by
      rw [linesOfKind, trimmedLines_eq]
      exact rules?_of_readLines_eq_error hlines
    rw [builderOf?, hnone]
    simp [bind, Except.bind]
  | ok out =>
    rw [builderOf?_of_linesOf hlines]
    simp [bind, Except.bind]

/-- Two texts with the same lines in each stream.  Of the lines that name the start symbol, only the
last one matters. -/
structure SameStreams (text text' : String) : Prop where
  rules : linesOfKind .rule text = linesOfKind .rule text'
  declarations : linesOfKind .declaration text = linesOfKind .declaration text'
  start : (linesOfKind .start text).getLast? = (linesOfKind .start text').getLast?

theorem SameStreams.builderOf?_eq {text text' : String} (h : SameStreams text text') :
    builderOf? text = builderOf? text' := by
  rw [builderOf?, builderOf?, h.rules, h.declarations, h.start]

/-- A line that is skipped is in no stream. -/
theorem sameStreams_of_skipped {text text' : String} {before after : List (List Char)}
    {l : List Char} (hskipped : lineKind (trim l) = .skipped)
    (htext : lines text.toList = before ++ after)
    (htext' : lines text'.toList = before ++ l :: after) : SameStreams text text' := by
  have hkind : ∀ kind ≠ .skipped, linesOfKind kind text = linesOfKind kind text' := by
    intro kind hne
    simp [linesOfKind, trimmedLines_eq, htext, htext', hskipped, hne.symm]
  constructor
  case start => rw [hkind .start (by decide)]
  all_goals exact hkind _ (by decide)

/-- How the streams are interleaved makes no difference: texts with the same streams are read as
the same grammar, or not at all.  So a blank line or a comment can be put in anywhere. -/
theorem read_eq_ok_of_streams :
    (∀ text text', SameStreams text text' → ∀ g, read text = .ok g ↔ read text' = .ok g) ∧
      ∀ (text text' : String) (before after : List (List Char)) (l : List Char),
        (trim l = [] ∨ (trim l).head? = some '#') → lines text.toList = before ++ after →
          lines text'.toList = before ++ l :: after → ∀ g, read text = .ok g ↔ read text' = .ok g := by
  have hsame : ∀ text text', SameStreams text text' →
      ∀ g, read text = .ok g ↔ read text' = .ok g := by
    intro text text' h g
    rw [read_eq_ok_iff, read_eq_ok_iff, h.builderOf?_eq]
  refine ⟨hsame, fun text text' before after l hskipped htext htext' ↦ ?_⟩
  have hkind : lineKind (trim l) = .skipped := by rw [lineKind, if_pos hskipped]
  exact hsame text text' (sameStreams_of_skipped hkind htext htext')

/-- Three texts of `S → a B`, `B → b`: in the first one the declaration stands between the rules and
another start symbol is overruled, in the second one the headers come elsewhere, and the third one
has a comment that looks like a rule. -/
theorem read_eq_ok_of_streams_interleaved :
    let g : Grammar := ⟨["B", "S"], [⟨⟨1⟩, [.term 'a', .nonterm ⟨0⟩]⟩, ⟨⟨0⟩, [.term 'b']⟩], ⟨1⟩⟩
    read "# ab\r\n%start B\r\n  S -> a B\r\n%nonterm B\r\n%start S\r\nB -> 'b' \r\n" = .ok g ∧
      read "%nonterm B\nS -> a B\n\n%start S\nB -> 'b'" = .ok g ∧
      read "%nonterm B\nS -> a B\n\n # S -> c\n%start S\nB -> 'b'" = .ok g := by
  intro g
  obtain ⟨hsame, hskip⟩ := read_eq_ok_of_streams
  have hrules : read
      "# ab\r\n%start B\r\n  S -> a B\r\n%nonterm B\r\n%start S\r\nB -> 'b' \r\n" = .ok g := by
    decide +kernel
  have hdeclared : read "%nonterm B\nS -> a B\n\n%start S\nB -> 'b'" = .ok g :=
    (hsame _ _ ⟨by decide +kernel, by decide +kernel, by decide +kernel⟩ g).1 hrules
  have hcomment : read "%nonterm B\nS -> a B\n\n # S -> c\n%start S\nB -> 'b'" = .ok g :=
    (hskip _ _ ["%nonterm B".toList, "S -> a B".toList, []] ["%start S".toList, "B -> 'b'".toList]
      " # S -> c".toList (.inr (by decide +kernel)) (by decide +kernel) (by decide +kernel) g).1
        hdeclared
  exact ⟨hrules, hdeclared, hcomment⟩

end ContextFree.Notation
