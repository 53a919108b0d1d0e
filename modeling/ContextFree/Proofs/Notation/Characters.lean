import ContextFree.Proofs.Grammar.Described
import ContextFree.Proofs.Notation.Alternatives
import ContextFree.Proofs.Notation.Flaw

/-!
# Rules given character by character

A rule can be given to the builder as a text, of which each character is a symbol, or it can stand
on a line of the notation with its characters set apart.  Both ways give the same grammar, or the
same error (`read_charLines`), as long as the line reads as the rule: its left-hand side is one that
a line can have, and no character on the right is a blank, a bar or a quote.

A character set apart is read as a word, and the builder resolves it as one.  The one error that is
left is a rule without characters; the reader finds it at the first such line, and the builder at
the first such rule.
-/

namespace ContextFree

namespace Builder

/-! ## Characters and words -/

/-- The rule with its right-hand side in symbols. -/
def rawRule (r : Rule) : Rule := ⟨r.lhs, .symbols r.rhs.raw⟩

/-- The builder with all right-hand sides in symbols. -/
def toRaw (b : Builder) : Builder := { b with rules := b.rules.map rawRule }

theorem resolveRule_rawRule (defined : List String) (r : Rule) :
    resolveRule defined (rawRule r) = resolveRule defined r := by
  rw [resolveRule_eq, resolveRule_eq]
  rfl

/-- It makes no difference whether characters are given as such or as words. -/
theorem build_toRaw (b : Builder) : b.toRaw.build = b.build := by
  have hdefined : b.toRaw.defined = b.defined := by simp [defined, toRaw, rawRule]
  have hresolve : b.toRaw.resolve = b.resolve := by
    rw [resolve, resolve, hdefined]
    simp only [toRaw, List.mapM_map, List.forM_eq_forM, List.forM_map, Function.comp_def,
      resolveRule_rawRule]
    rfl
  rw [build, build, hresolve]

end Builder

/-- A rule given character by character. -/
structure CharRule where
  lhs : String
  rhs : List Char
deriving DecidableEq, Repr

namespace CharRule

/-- The step that gives the rule to a builder. -/
def step (r : CharRule) : BuilderStep := .rule r.lhs r.rhs

/-- The rule that the step adds. -/
def rule (r : CharRule) : Rule := ⟨r.lhs, .chars r.rhs⟩

/-- The step that gives the rule in symbols. -/
def rawStep (r : CharRule) : BuilderStep := .production r.lhs (r.rhs.map (.word ·.toString))

/-- The characters of the right-hand side with spaces between them. -/
def spacedRhs (r : CharRule) : String := " ".intercalate (r.rhs.map Char.toString)

/-- The line that says the rule. -/
def line (r : CharRule) : String := Notation.ruleText r.lhs r.spacedRhs

end CharRule

namespace Notation

open ContextFree.Text

/-- A line can say the rule: the left-hand side can stand on a line and is no keyword, and each
character of the right-hand side is a word by itself, so it is no blank, bar or quote. -/
structure Writable (r : CharRule) : Prop where
  isLhs : IsLhs r.lhs.toList
  ne_start : r.lhs ≠ "%start"
  ne_declaration : r.lhs ≠ "%nonterm"
  isWordChar : ∀ c ∈ r.rhs, isWordChar c = true

instance (r : CharRule) : Decidable (Writable r) :=
  decidable_of_iff (IsLhs r.lhs.toList ∧ r.lhs ≠ "%start" ∧ r.lhs ≠ "%nonterm" ∧
      r.rhs.all isWordChar = true)
    ⟨fun ⟨h₁, h₂, h₃, h₄⟩ ↦ ⟨h₁, h₂, h₃, List.all_eq_true.1 h₄⟩,
      fun ⟨h₁, h₂, h₃, h₄⟩ ↦ ⟨h₁, h₂, h₃, List.all_eq_true.2 h₄⟩⟩

variable {rules : List CharRule} {r : CharRule}

/-! ## One line -/

/-- Characters set apart are words. -/
theorem tokens?_spaced {cs : List Char} (h : ∀ c ∈ cs, isWordChar c = true) :
    tokens? (" ".intercalate (cs.map Char.toString)).toList = some (cs.map (.word [·])) := by
  induction cs with
  | nil => simp
  | cons c cs ih =>
    obtain ⟨hc, hcs⟩ := List.forall_mem_cons.1 h
    have hword : IsWord [c] := ⟨by simp, by simpa using hc⟩
    cases cs with
    | nil => simpa using tokens?_append hword (t := []) (by simp)
    | cons d cs =>
      rw [List.map_cons, List.map_cons, String.intercalate_cons_cons, String.toList_append,
        String.toList_append, List.append_assoc, Char.toString_eq_singleton,
        String.toList_singleton]
      refine (tokens?_append (t := ' ' :: _) hword (by simp)).trans ?_
      rw [tokens?_blank isBlank_space]
      exact congrArg _ (ih hcs)

theorem alternatives?_spacedRhs (h : Writable r) :
    alternatives? r.spacedRhs.toList = some [r.rhs.map (.word ·.toString)] := by
  have hbar : .bar ∉ r.rhs.map (Token.word [·]) := by simp
  rw [alternatives?, CharRule.spacedRhs, tokens?_spaced h.isWordChar, Option.map_some,
    alternatives_of_bar_notMem hbar, List.flatMap_map, List.map_eq_flatMap]
  simp only [Token.symbols, Char.toString_eq_singleton, String.singleton_eq_ofList]

/-- A line is read as its rule, unless that has no characters. -/
theorem ofTrimmed_line (h : Writable r) (number : Nat) :
    Line.ofTrimmed number (trim r.line.toList) =
      if r.rhs = [] then .error (.emptyProduction r.lhs)
      else .ok (.rule r.lhs [r.rhs.map (.word ·.toString)]) := by
  have hkind : lineKind (trim r.line.toList) = .rule :=
    lineKind_ruleText h.isLhs h.ne_start h.ne_declaration r.spacedRhs
  rw [ofTrimmed_eq, hkind, CharRule.line, trim_ruleText h.isLhs.isField]
  simp only [Line.ruleOfTrimmed, splitRule?_append h.isLhs.isField h.isLhs.arrowFree,
    alternatives?_trimEnd, alternatives?_blank isBlank_space, alternatives?_spacedRhs h]
  simp [throw, throwThe, MonadExceptOf.throw, pure, Except.pure]

/-! ## All lines -/

/-- What lines come to that say rules: the first rule without characters is an error. -/
def charSteps (rules : List CharRule) : Except GrammarError (List BuilderStep) :=
  match rules.find? (·.rhs = []) with
  | some r => .error (.emptyProduction r.lhs)
  | none => .ok (rules.map (·.rawStep))

theorem charSteps_cons (r : CharRule) (rules : List CharRule) : charSteps (r :: rules) =
    if r.rhs = [] then .error (.emptyProduction r.lhs)
    else (charSteps rules).map (r.rawStep :: ·) := by
  rw [charSteps, List.find?_cons]
  by_cases hr : r.rhs = []
  · simp [hr]
  · simp only [hr, decide_false, if_false, charSteps]
    cases rules.find? (·.rhs = []) <;> rfl

/-- A line that can be read puts its steps in front. -/
theorem map_readLines_cons {number : Nat} {l : List Char} {line : Line}
    (h : Line.read number l = .ok line) (ls : List (List Char)) :
    (readLines number (l :: ls)).map (·.flatMap Line.steps) =
      ((readLines (number + 1) ls).map (·.flatMap Line.steps)).map (line.steps ++ ·) := by
  rw [readLines, h]
  cases readLines (number + 1) ls <;> rfl

/-- Lines that say rules are read as the rules, and blank lines between them make no difference. -/
theorem map_readLines {ls : List (List Char)} (h : ∀ r ∈ rules, Writable r)
    (hls : (ls.map trim).filter (· ≠ []) = rules.map fun r ↦ trim r.line.toList) (number : Nat) :
    (readLines number ls).map (·.flatMap Line.steps) = charSteps rules := by
  induction ls generalizing rules number with
  | nil =>
    obtain rfl : rules = [] := List.map_eq_nil_iff.1 hls.symm
    rfl
  | cons l ls ih =>
    rw [List.map_cons] at hls
    by_cases hl : trim l = []
    · have hblank : Line.read number l = .ok .empty := by
        rw [Line.read, Line.ofTrimmed, if_pos (.inl hl)]
        rfl
      rw [List.filter_cons_of_neg (by simpa using hl)] at hls
      rw [map_readLines_cons hblank, ih h hls]
      cases charSteps rules <;> rfl
    · rw [List.filter_cons_of_pos (by simpa using hl)] at hls
      obtain ⟨r, rules, rfl, hr, hrest⟩ := List.map_eq_cons_iff.1 hls.symm
      obtain ⟨hwrite, hrules⟩ := List.forall_mem_cons.1 h
      have hline := ofTrimmed_line hwrite number
      rw [hr, ← Line.read] at hline
      rw [charSteps_cons]
      by_cases hnil : r.rhs = []
      · rw [if_pos hnil] at hline ⊢
        rw [readLines_cons_eq_error_iff.2 (.inl hline)]
        rfl
      · rw [if_neg hnil] at hline ⊢
        rw [map_readLines_cons hline, ih hrules hrest.symm]
        rfl

/-! ## All rules -/

/-- What the steps of the rules collect. -/
theorem ofSteps_map_step (rules : List CharRule) :
    Builder.ofSteps (rules.map (·.step)) = ⟨none, [], rules.map (·.rule)⟩ := by
  simp [Builder.ofSteps_eq, CharRule.step, CharRule.rule, BuilderStep.startName?,
    BuilderStep.declaredName?, BuilderStep.rule?]

theorem ofSteps_map_rawStep (rules : List CharRule) :
    Builder.ofSteps (rules.map (·.rawStep)) = (Builder.ofSteps (rules.map (·.step))).toRaw := by
  rw [ofSteps_map_step]
  simp [Builder.ofSteps_eq, CharRule.rawStep, CharRule.rule, Function.comp_def,
    BuilderStep.startName?, BuilderStep.declaredName?, BuilderStep.rule?, Builder.toRaw,
    Builder.rawRule, RawRhs.raw]

/-- A rule stands for nothing just if it has no characters. -/
theorem spellRule_eq_nil_iff (defined : List String) (r : CharRule) :
    (Builder.spellRule defined r.rule).2 = [] ↔ r.rhs = [] := by
  have hchar : ∀ c : Char, Builder.spellSymbol defined (.word (String.singleton c)) ≠ [] := by
    intro c
    rw [Builder.spellSymbol]
    split <;> simp
  rw [CharRule.rule]
  cases r.rhs <;> simp [Builder.spellRule, RawRhs.raw, hchar]

/-- The builder finds the same error at the same rule, and otherwise takes the rules in symbols. -/
theorem build_map_step (h : ∀ r ∈ rules, Writable r) :
    (Builder.ofSteps (rules.map (·.step))).build =
      (charSteps rules).bind fun steps ↦ (Builder.ofSteps steps).build := by
  rw [charSteps]
  split
  case h_1 r hfind =>
    obtain ⟨hr, before, after, rfl, hbefore⟩ := List.find?_eq_some_iff_append.1 hfind
    have hlhs : ∀ r' ∈ (before ++ r :: after).map (·.rule), r'.lhs ≠ "" := by
      refine List.forall_mem_map.2 fun r' hr' ↦ ?_
      simpa [CharRule.rule] using (h r' hr').isLhs.isField.ne_nil
    have hbefore' : ∀ defined, ∀ r' ∈ before.map (·.rule),
        (Builder.spellRule defined r').2 ≠ [] := by
      refine fun defined ↦ List.forall_mem_map.2 fun r' hr' ↦ ?_
      rw [ne_eq, spellRule_eq_nil_iff]
      simpa using hbefore r' hr'
    rw [ofSteps_map_step]
    exact Builder.build_of_rhs (List.forall_mem_nil _) hlhs List.map_append (hbefore' _)
      ((spellRule_eq_nil_iff _ r).2 (by simpa using hr))
  case h_2 =>
    rw [← Builder.build_toRaw, ← ofSteps_map_rawStep]
    rfl

theorem read_eq_map_bind (text : String) : read text =
    ((linesOf text).map (·.flatMap Line.steps)).bind fun steps ↦ (Builder.ofSteps steps).build := by
  rw [read]
  cases linesOf text <;> rfl

/-- A text with a line for each rule, whatever ends the lines, is read as what the builder makes of
the rules. -/
theorem read_eq_build {text : String} (h : ∀ r ∈ rules, Writable r)
    (htext : (trimmedLines text).filter (· ≠ []) = rules.map fun r ↦ trim r.line.toList) :
    read text = (Builder.ofSteps (rules.map (·.step))).build := by
  rw [trimmedLines_eq] at htext
  rw [read_eq_map_bind, linesOf, map_readLines h htext, build_map_step h]

/-! ## Texts -/

theorem newline_notMem_spaced {cs : List Char} (h : ∀ c ∈ cs, isWordChar c = true) :
    '\n' ∉ (" ".intercalate (cs.map Char.toString)).toList := by
  have hchar : isWordChar '\n' = false := by decide
  induction cs with
  | nil => simp
  | cons c cs ih =>
    obtain ⟨hc, hcs⟩ := List.forall_mem_cons.1 h
    have hne : '\n' ≠ c := fun heq ↦ by simp [← heq, hchar] at hc
    cases cs with
    | nil => simpa using hne
    | cons d cs =>
      rw [List.map_cons, List.map_cons, String.intercalate_cons_cons]
      simpa [hne] using ih hcs

theorem newline_notMem_line (h : Writable r) : '\n' ∉ r.line.toList := by
  have hrhs := newline_notMem_spaced h.isWordChar
  rw [← CharRule.spacedRhs] at hrhs
  simp [CharRule.line, ruleText, h.isLhs.isField.newline_notMem, hrhs]

theorem trim_line_ne_nil (h : Writable r) : trim r.line.toList ≠ [] := by
  rw [CharRule.line, trim_ruleText h.isLhs.isField]
  exact List.append_ne_nil_of_left_ne_nil h.isLhs.isField.ne_nil _

theorem filter_trim_line (h : ∀ r ∈ rules, Writable r) :
    (rules.map fun r ↦ trim r.line.toList).filter (· ≠ []) =
      rules.map fun r ↦ trim r.line.toList := by
  rw [List.filter_eq_self]
  exact List.forall_mem_map.2 fun r hr ↦ by simpa using trim_line_ne_nil (h r hr)

/-- The lines of the rules, with newlines between them. -/
theorem trimmedLines_separated (h : ∀ r ∈ rules, Writable r) :
    (trimmedLines ("\n".intercalate (rules.map (·.line)))).filter (· ≠ []) =
      rules.map fun r ↦ trim r.line.toList := by
  have hlist : ("\n".intercalate (rules.map (·.line))).toList =
      ['\n'].intercalate (rules.map (·.line.toList)) := by
    rw [String.toList_intercalate, List.map_map]
    rfl
  have hnewline : ∀ l ∈ rules.map (·.line.toList), '\n' ∉ l :=
    List.forall_mem_map.2 fun r hr ↦ newline_notMem_line (h r hr)
  rw [trimmedLines_eq, hlist]
  cases rules with
  | nil => rfl
  | cons r rules =>
    rw [lines_intercalate (by simp) hnewline, List.map_map]
    exact filter_trim_line h

/-- The lines of the rules, each closed by a newline. -/
theorem trimmedLines_closed (h : ∀ r ∈ rules, Writable r) :
    (trimmedLines (String.join (rules.map (·.line ++ "\n")))).filter (· ≠ []) =
      rules.map fun r ↦ trim r.line.toList := by
  have hnewline : ∀ l ∈ rules.map (·.line.toList), '\n' ∉ l :=
    List.forall_mem_map.2 fun r hr ↦ newline_notMem_line (h r hr)
  have hlist : (String.join (rules.map (·.line ++ "\n"))).toList =
      unlines (rules.map (·.line.toList)) := by
    simp [unlines, String.toList_join, List.flatMap_map]
  have hlast : [trim []].filter (· ≠ []) = [] := rfl
  rw [trimmedLines_eq, hlist, lines_unlines hnewline, List.map_append, List.map_map,
    List.filter_append, List.map_singleton, hlast, List.append_nil]
  exact filter_trim_line h

/-- Rules given character by character, on lines of a text or as the steps of a builder, come to the
same grammar or the same error, whether the lines are separated or closed by newlines. -/
theorem read_charLines (h : ∀ r ∈ rules, Writable r) :
    let built := (Builder.ofSteps (rules.map fun r ↦ .rule r.lhs r.rhs)).build
    read ("\n".intercalate (rules.map (·.line))) = built ∧
      read (String.join (rules.map (·.line ++ "\n"))) = built :=
  ⟨read_eq_build h (trimmedLines_separated h), read_eq_build h (trimmedLines_closed h)⟩

/-- A right-hand side may begin like an arrow, a comment or a keyword, and a left-hand side may end
like an arrow. -/
theorem read_charLines_arrows :
    let rules : List CharRule :=
      [⟨"S", ['-', '>', 'B']⟩, ⟨"B", ['#', '%']⟩, ⟨"%start-", ['%', 'S']⟩]
    let g : Grammar := ⟨["S", "B", "%start-"], [⟨⟨0⟩, [.term '-', .term '>', .nonterm ⟨1⟩]⟩,
      ⟨⟨1⟩, [.term '#', .term '%']⟩, ⟨⟨2⟩, [.term '%', .nonterm ⟨0⟩]⟩], ⟨0⟩⟩
    (∀ r ∈ rules, Writable r) ∧
      read "S -> - > B\nB -> # %\n%start- -> % S" = .ok g ∧
      (Builder.ofSteps (rules.map fun r ↦ .rule r.lhs r.rhs)).build = .ok g := by
  intro rules g
  have hrules : ∀ r ∈ rules, Writable r := by decide
  have hbuild : (Builder.ofSteps (rules.map fun r ↦ .rule r.lhs r.rhs)).build = .ok g := by
    decide +kernel
  have htext : "\n".intercalate (rules.map (·.line)) =
      "S -> - > B\nB -> # %\n%start- -> % S" := by decide +kernel
  obtain ⟨hseparated, -⟩ := read_charLines hrules
  rw [htext, hbuild] at hseparated
  exact ⟨hrules, hseparated, hbuild⟩

end Notation

end ContextFree
