import ContextFree.Proofs.Grammar.Spelling
import ContextFree.Proofs.Notation.Quoting
import ContextFree.Proofs.Notation.Streams

/-!
# The first flaw of a text

A line that should be a rule can have one of three flaws: there is no arrow to split it at, a quote
behind the arrow is not closed, or an alternative says nothing (`Flaw`).  A text cannot be read just
if one of its lines has a flaw, and the first such line decides the error
(`read_eq_error_iff_flaw`).  Building never adds an error of its own: what can be read line by line
gives names that are not empty and right-hand sides that do not come to nothing.
-/

namespace ContextFree.Notation

open ContextFree.Text

variable {number : Nat} {s lhs rhs lhs' rhs' : List Char} {e : GrammarError}

/-! ## Splits at an arrow -/

/-- The text is a left-hand side, which is one field, then an arrow of either kind, which blanks may
stand before, and then the right-hand side. -/
def IsSplit (s lhs rhs : List Char) : Prop :=
  IsField lhs ∧ ∃ rest, s = lhs ++ rest ∧
    (trimStart rest = "->".toList ++ rhs ∨ trimStart rest = "::=".toList ++ rhs)

/-- A split with the shortest left-hand side that there is. -/
def Splits (s lhs rhs : List Char) : Prop :=
  IsSplit s lhs rhs ∧ ∀ lhs' rhs', IsSplit s lhs' rhs' → lhs.length ≤ lhs'.length

theorem afterArrow?_eq_some_iff : afterArrow? s = some rhs ↔
    s = "->".toList ++ rhs ∨ s = "::=".toList ++ rhs := by
  fun_cases afterArrow? s
  case case1 => simp
  case case2 => simp
  case case3 harrow hcolons =>
    refine iff_of_false (Option.some_ne_none rhs).symm ?_
    rintro (rfl | rfl)
    · exact harrow rhs rfl
    · exact hcolons rhs rfl

/-- The arrow stands behind the first character, or the rest is split as well. -/
theorem isSplit_cons_iff {c : Char} : IsSplit (c :: s) lhs rhs ↔ isBlank c = false ∧
    (lhs = [c] ∧ afterArrow? (trimStart s) = some rhs ∨
      ∃ lhs', lhs = c :: lhs' ∧ IsSplit s lhs' rhs) := by
  simp only [IsSplit, ← afterArrow?_eq_some_iff]
  constructor
  · rintro ⟨hfield, rest, hs, harrow⟩
    obtain ⟨d, lhs, rfl⟩ := List.exists_cons_of_ne_nil hfield.ne_nil
    obtain ⟨rfl, rfl⟩ := List.cons.inj hs
    obtain ⟨hc, hlhs⟩ := List.forall_mem_cons.1 hfield.not_blank
    refine ⟨hc, ?_⟩
    cases lhs with
    | nil => exact .inl ⟨rfl, harrow⟩
    | cons d lhs => exact .inr ⟨_, rfl, ⟨List.cons_ne_nil d lhs, hlhs⟩, rest, rfl, harrow⟩
  · rintro ⟨hc, ⟨rfl, harrow⟩ | ⟨lhs', rfl, hfield, rest, rfl, harrow⟩⟩
    · exact ⟨⟨by simp, by simpa using hc⟩, s, rfl, harrow⟩
    · exact ⟨⟨by simp, List.forall_mem_cons.2 ⟨hc, hfield.not_blank⟩⟩, rest, rfl, harrow⟩

/-- Splits of one length are the same. -/
theorem IsSplit.eq_of_length_eq (h : IsSplit s lhs rhs) (h' : IsSplit s lhs' rhs')
    (hlength : lhs.length = lhs'.length) : lhs = lhs' ∧ rhs = rhs' := by
  obtain ⟨-, rest, rfl, harrow⟩ := h
  obtain ⟨-, rest', heq, harrow'⟩ := h'
  obtain ⟨rfl, rfl⟩ := List.append_inj heq hlength
  rw [← afterArrow?_eq_some_iff] at harrow harrow'
  exact ⟨rfl, Option.some.inj (harrow.symm.trans harrow')⟩

theorem splitRule?_eq_none_iff : splitRule? s = none ↔ ∀ lhs rhs, ¬IsSplit s lhs rhs := by
  fun_induction splitRule? s with
  | case1 => exact iff_of_true rfl fun lhs rhs ⟨hfield, rest, hs, _⟩ ↦ hfield.ne_nil (by simp_all)
  | case2 c s hc => simp [isSplit_cons_iff, hc]
  | case3 c s hc rhs harrow =>
    refine iff_of_false nofun fun h ↦ h [c] rhs (isSplit_cons_iff.2 ?_)
    exact ⟨by simpa using hc, .inl ⟨rfl, harrow⟩⟩
  | case4 c s hc harrow ih =>
    rw [Option.map_eq_none_iff, ih]
    constructor
    · intro h lhs rhs hsplit
      obtain ⟨-, ⟨-, harrow'⟩ | ⟨lhs', -, hsplit'⟩⟩ := isSplit_cons_iff.1 hsplit
      · simp [harrow] at harrow'
      · exact h lhs' rhs hsplit'
    · exact fun h lhs rhs hsplit ↦
        h _ _ (isSplit_cons_iff.2 ⟨by simpa using hc, .inr ⟨lhs, rfl, hsplit⟩⟩)

theorem splits_of_splitRule? (h : splitRule? s = some (lhs, rhs)) : Splits s lhs rhs := by
  fun_induction splitRule? s generalizing lhs with
  | case1 => cases h
  | case2 => cases h
  | case3 c s hc rhs harrow =>
    cases h
    refine ⟨isSplit_cons_iff.2 ⟨by simpa using hc, .inl ⟨rfl, harrow⟩⟩, fun lhs' rhs' h' ↦ ?_⟩
    exact List.length_pos_iff.2 h'.1.ne_nil
  | case4 c s hc harrow ih =>
    obtain ⟨⟨l, r⟩, hrest, heq⟩ := Option.map_eq_some_iff.1 h
    cases heq
    obtain ⟨hsplit, hshortest⟩ := ih hrest
    refine ⟨isSplit_cons_iff.2 ⟨by simpa using hc, .inr ⟨l, rfl, hsplit⟩⟩, fun lhs' rhs' h' ↦ ?_⟩
    -- no other split can stop at the first character
    obtain ⟨-, ⟨-, harrow'⟩ | ⟨l', rfl, hsplit'⟩⟩ := isSplit_cons_iff.1 h'
    · simp [harrow] at harrow'
    · exact Nat.succ_le_succ (hshortest l' rhs' hsplit')

/-- A rule line is split where the left-hand side is shortest. -/
theorem splitRule?_eq_some_iff : splitRule? s = some (lhs, rhs) ↔ Splits s lhs rhs := by
  refine ⟨splits_of_splitRule?, fun ⟨hsplit, hshortest⟩ ↦ ?_⟩
  cases h : splitRule? s with
  | none => exact absurd hsplit (splitRule?_eq_none_iff.1 h lhs rhs)
  | some sides =>
    obtain ⟨lhs', rhs'⟩ := sides
    obtain ⟨hsplit', hshortest'⟩ := splits_of_splitRule? h
    obtain ⟨rfl, rfl⟩ := hsplit.eq_of_length_eq hsplit'
      (Nat.le_antisymm (hshortest _ _ hsplit') (hshortest' _ _ hsplit))
    rfl

/-! ## Flaws of a line -/

/-- What is wrong with a numbered line that should be a rule, and the error that says so.  A quote
that is not closed counts before an alternative that says nothing. -/
inductive Flaw (number : Nat) (s : List Char) : GrammarError → Prop where
  | noArrow (hnone : ∀ lhs rhs, ¬IsSplit s lhs rhs) :
      Flaw number s (.malformedRule number (String.ofList s))
  | openQuote {lhs rhs : List Char} (hsplit : Splits s lhs rhs) (hopen : OpensQuote rhs) :
      Flaw number s (.unterminatedQuote number)
  | silentPart {lhs rhs : List Char} (hsplit : Splits s lhs rhs) (hclosed : Closed rhs)
      (hsilent : HasSilentPart rhs) : Flaw number s (.emptyProduction (String.ofList lhs))

/-- A rule line is refused for its flaw. -/
theorem ruleOfTrimmed_eq_error_iff_flaw :
    Line.ruleOfTrimmed number s = .error e ↔ Flaw number s e := by
  simp only [ruleOfTrimmed_eq_error_iff, splitRule?_eq_none_iff, splitRule?_eq_some_iff,
    alternatives?_eq_none_iff]
  constructor
  · rintro (⟨hnone, rfl⟩ | ⟨lhs, rhs, hsplit, ⟨hopen, rfl⟩ | ⟨as, has, hnil, rfl⟩⟩)
    · exact .noArrow hnone
    · exact .openQuote hsplit hopen
    · obtain ⟨ts, hts, -⟩ := Option.map_eq_some_iff.1 has
      exact .silentPart hsplit (closed_of_tokens? hts) ((nil_mem_alternatives_iff has).1 hnil)
  · intro h
    cases h with
    | noArrow hnone => exact .inl ⟨hnone, rfl⟩
    | openQuote hsplit hopen => exact .inr ⟨_, _, hsplit, .inl ⟨hopen, rfl⟩⟩
    | silentPart hsplit hclosed hsilent =>
      obtain ⟨as, has⟩ := hclosed.exists_alternatives?
      exact .inr ⟨_, _, hsplit, .inr ⟨as, has, (nil_mem_alternatives_iff has).2 hsilent, rfl⟩⟩

/-! ## Flaws of lines -/

/-- The first line with a flaw, and the error that says so. -/
def FirstFlaw (cs : List (List Char × Nat)) (e : GrammarError) : Prop :=
  ∃ before s number after, cs = before ++ (s, number) :: after ∧
    (∀ c ∈ before, ∀ e, ¬Flaw c.2 c.1 e) ∧ Flaw number s e

theorem firstFlaw_cons_iff {cs : List (List Char × Nat)} : FirstFlaw ((s, number) :: cs) e ↔
    Flaw number s e ∨ (∀ e, ¬Flaw number s e) ∧ FirstFlaw cs e := by
  constructor
  · rintro ⟨before, s', number', after, heq, hbefore, hflaw⟩
    cases before with
    | nil =>
      cases heq
      exact .inl hflaw
    | cons c before =>
      obtain ⟨rfl, rfl⟩ := List.cons.inj heq
      obtain ⟨hc, hbefore⟩ := List.forall_mem_cons.1 hbefore
      exact .inr ⟨hc, before, s', number', after, rfl, hbefore, hflaw⟩
  · rintro (hflaw | ⟨hnone, before, s', number', after, rfl, hbefore, hflaw⟩)
    · exact ⟨[], s, number, cs, rfl, nofun, hflaw⟩
    · exact ⟨(s, number) :: before, s', number', after, rfl,
        List.forall_mem_cons.2 ⟨hnone, hbefore⟩, hflaw⟩

theorem exists_firstFlaw_iff {cs : List (List Char × Nat)} :
    (∃ e, FirstFlaw cs e) ↔ ∃ c ∈ cs, ∃ e, Flaw c.2 c.1 e := by
  induction cs with
  | nil => simp [FirstFlaw]
  | cons c cs ih =>
    obtain ⟨s, number⟩ := c
    simp only [firstFlaw_cons_iff, List.mem_cons, exists_eq_or_imp, ← ih]
    constructor
    · rintro ⟨e, hflaw | ⟨-, hrest⟩⟩
      · exact .inl ⟨e, hflaw⟩
      · exact .inr ⟨e, hrest⟩
    · -- a flaw of the first line hides those behind it
      by_cases hflaw : ∃ e, Flaw number s e
      · exact fun _ ↦ hflaw.imp fun e ↦ .inl
      · rintro (h | ⟨e, hrest⟩)
        · exact absurd h hflaw
        · exact ⟨e, .inr ⟨not_exists.1 hflaw, hrest⟩⟩

/-- The lines that should be rules, with their numbers. -/
def numberedRules (number : Nat) (ls : List (List Char)) : List (List Char × Nat) :=
  (ls.zipIdx number).filter (lineKind ·.1 = .rule)

theorem numberedRules_cons (number : Nat) (s : List Char) (ls : List (List Char)) :
    numberedRules number (s :: ls) = if lineKind s = .rule
      then (s, number) :: numberedRules (number + 1) ls else numberedRules (number + 1) ls := by
  simp [numberedRules, List.zipIdx_cons, List.filter_cons]

/-- The first flaw decides the error. -/
theorem readLines_eq_error_iff {ls : List (List Char)} :
    readLines number ls = .error e ↔ FirstFlaw (numberedRules number (ls.map trim)) e := by
  induction ls generalizing number with
  | nil => simp [readLines, numberedRules, FirstFlaw, pure, Except.pure]
  | cons l ls ih =>
    -- reading goes on behind a line just if it has no flaw
    have hline : (∃ line, Line.read number l = .ok line) ↔
        ∀ e, ¬(lineKind (trim l) = .rule ∧ Flaw number (trim l) e) := by
      simp only [← ruleOfTrimmed_eq_error_iff_flaw, ← ofTrimmed_eq_error_iff, Line.read]
      cases Line.ofTrimmed number (trim l) <;> simp
    rw [readLines_cons_eq_error_iff, exists_and_right, hline, ih, Line.read, ofTrimmed_eq_error_iff,
      ruleOfTrimmed_eq_error_iff_flaw, List.map_cons, numberedRules_cons]
    by_cases hkind : lineKind (trim l) = .rule
    · simp [hkind, firstFlaw_cons_iff]
    · simp [hkind]

/-! ## Texts -/

/-- No rule of a rule line is empty. -/
theorem rhs_ne_nil_of_mem_rules? {ls : List (List Char)} {rules : List Rule}
    (h : rules? ls = some rules) : ∀ r ∈ rules, r.rhs.raw ≠ [] := by
  induction ls generalizing rules with
  | nil =>
    cases h
    nofun
  | cons s ls ih =>
    obtain ⟨new, hnew, hrest⟩ := Option.bind_eq_some_iff.1 h
    obtain ⟨old, hold, heq⟩ := Option.bind_eq_some_iff.1 hrest
    cases heq
    intro r hr
    rcases List.mem_append.1 hr with hr | hr
    · obtain ⟨⟨lhs, rhs⟩, -, hnew⟩ := Option.bind_eq_some_iff.1 hnew
      obtain ⟨as, -, hnew⟩ := Option.bind_eq_some_iff.1 hnew
      obtain ⟨hnil, heq⟩ := Option.ite_none_left_eq_some.1 hnew
      cases heq
      obtain ⟨a, ha, rfl⟩ := List.mem_map.1 hr
      exact fun heq ↦ hnil (List.any_eq_true.2 ⟨a, ha, List.isEmpty_iff.2 heq⟩)
    · exact ih hold r hr

theorem spellSymbol_ne_nil {defined : List String} {x : RawSymbol} (hx : IsReadable x) :
    Builder.spellSymbol defined x ≠ [] := by
  cases x with
  | term c => exact List.cons_ne_nil _ _
  | nonterm name => cases hx
  | word w =>
    rw [Builder.spellSymbol]
    split
    case isTrue => exact List.cons_ne_nil _ _
    case isFalse => simpa using hx.ne_nil

/-- What can be read line by line can be built. -/
theorem exists_build_of_linesOf {text : String} {out : List Line} (h : linesOf text = .ok out) :
    ∃ g, (Builder.ofSteps (out.flatMap Line.steps)).build = .ok g := by
  have hreadable := readableBuilder_ofSteps (readableStep_of_linesOf h)
  have hrules : ∀ r ∈ (Builder.ofSteps (out.flatMap Line.steps)).rules, r.rhs.raw ≠ [] := by
    rw [Builder.rules_ofSteps]
    exact rhs_ne_nil_of_mem_rules? (tells_of_readLines h).rules
  rw [Builder.exists_build_iff]
  constructor
  case declared_ne => exact fun name hname ↦ by simpa using (hreadable.declared name hname).ne_nil
  case lhs_ne => exact fun r hr ↦ by simpa using (hreadable.rules r hr).1.isField.ne_nil
  case rhs_ne =>
    intro r hr
    obtain ⟨x, xs, hraw⟩ := List.exists_cons_of_ne_nil (hrules r hr)
    have hx : IsReadable x := (hreadable.rules r hr).2 x (hraw ▸ .head _)
    simp [Builder.spellRule, hraw, spellSymbol_ne_nil hx]

theorem read_eq_error_iff {text : String} : read text = .error e ↔ linesOf text = .error e := by
  rw [read]
  cases hlines : linesOf text with
  | error e' => simp [bind, Except.bind]
  | ok out =>
    obtain ⟨g, hg⟩ := exists_build_of_linesOf hlines
    simp [bind, Except.bind, hg]

/-- The trimmed lines of a text that should be rules, with their numbers.  Every line counts. -/
def ruleCandidates (text : String) : List (List Char × Nat) :=
  numberedRules 1 (trimmedLines text)

/-- A text cannot be read just if a line that should be a rule has a flaw, and the error is that of
the first such line.  Where there is none, building does not fail either. -/
theorem read_eq_error_iff_flaw (text : String) :
    (∀ e, read text = .error e ↔ FirstFlaw (ruleCandidates text) e) ∧
      ((∃ e, read text = .error e) ↔ ∃ c ∈ ruleCandidates text, ∃ e, Flaw c.2 c.1 e) ∧
      ((∀ c ∈ ruleCandidates text, ∀ e, ¬Flaw c.2 c.1 e) → ∃ out, linesOf text = .ok out ∧
        ∃ g, (Builder.ofSteps (out.flatMap Line.steps)).build = .ok g) := by
  have hfirst : ∀ e, read text = .error e ↔ FirstFlaw (ruleCandidates text) e := by
    intro e
    rw [read_eq_error_iff, linesOf, readLines_eq_error_iff, ruleCandidates, trimmedLines_eq]
  refine ⟨hfirst, by simp only [hfirst, exists_firstFlaw_iff], fun hnone ↦ ?_⟩
  cases hlines : linesOf text with
  | error e =>
    obtain ⟨c, hc, e, hflaw⟩ := exists_firstFlaw_iff.1 ⟨e, (hfirst e).1 (read_eq_error_iff.2 hlines)⟩
    exact absurd hflaw (hnone c hc e)
  | ok out => exact ⟨out, rfl, exists_build_of_linesOf hlines⟩

/-- A comment and a blank line come before the rules.  Of the two flawed lines behind the first one,
that with an unfinished quote is reported; without them the text is read. -/
theorem read_eq_error_iff_flaw_fourth_line :
    read "# S\r\n\r\nS -> a\r\nS -> | 'b\r\nS" = .error (.unterminatedQuote 4) ∧
      ∃ out, linesOf "# S\r\n\r\nS -> a" = .ok out ∧
        ∃ g, (Builder.ofSteps (out.flatMap Line.steps)).build = .ok g := by
  have hgood : ∀ e, ¬Flaw 3 "S -> a".toList e := by
    have hread : Line.ruleOfTrimmed 3 "S -> a".toList = .ok (.rule "S" [[.word "a"]]) := by
      decide +kernel
    intro e hflaw
    rw [← ruleOfTrimmed_eq_error_iff_flaw, hread] at hflaw
    cases hflaw
  have hflaw : Flaw 4 "S -> | 'b".toList (.unterminatedQuote 4) :=
    ruleOfTrimmed_eq_error_iff_flaw.1 (by decide +kernel)
  have hfirst : FirstFlaw (ruleCandidates "# S\r\n\r\nS -> a\r\nS -> | 'b\r\nS")
      (.unterminatedQuote 4) :=
    ⟨[("S -> a".toList, 3)], _, 4, [("S".toList, 5)], by decide +kernel,
      List.forall_mem_singleton.2 hgood, hflaw⟩
  have hnone : ∀ c ∈ ruleCandidates "# S\r\n\r\nS -> a", ∀ e, ¬Flaw c.2 c.1 e := by
    have hline : ruleCandidates "# S\r\n\r\nS -> a" = [("S -> a".toList, 3)] := by decide +kernel
    rw [hline]
    exact List.forall_mem_singleton.2 hgood
  exact ⟨((read_eq_error_iff_flaw _).1 _).2 hfirst, (read_eq_error_iff_flaw _).2.2 hnone⟩

end ContextFree.Notation
