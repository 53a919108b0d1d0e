import ContextFree.Proofs.Notation.Line
import ContextFree.Proofs.Notation.Token
import ContextFree.Proofs.Text.Lines
import Mathlib.Data.List.Forall2
import Mathlib.Data.List.SplitBy

/-!
# Reading printed lines

Each printed line is read as a line of its kind: the start symbol, the declaration, and the
alternatives of a run of productions.  There is one exception.  Where the left-hand side of a run
has the name `%nonterm`, the line looks like a declaration, and the names that it declares are
whatever stands behind.

So the printed text of a grammar gives the builder (`read_print`) its start symbol, its names if
they had to be declared, and the rules of all productions but those of a non-terminal `%nonterm`
(`rules_printedBuilder`).
-/

namespace ContextFree.Notation

open ContextFree.Text

/-! ## Grammars that can be written down -/

/-- The grammars whose texts keep symbols and lines apart. -/
structure Printable (g : Grammar) : Prop where
  isField : ∀ name ∈ g.names, IsField name.toList
  /-- A name on a right-hand side is a single token. -/
  isWord : ∀ p ∈ g.productions, ∀ a, .nonterm a ∈ p.rhs →
    '|' ∉ (g.name a).toList ∧ '\'' ∉ (g.name a).toList ∧ '"' ∉ (g.name a).toList
  /-- A left-hand side opens no comment and ends at its own arrow. -/
  isLhs : ∀ p ∈ g.productions,
    (g.name p.lhs).toList.head? ≠ some '#' ∧ ArrowFree (g.name p.lhs).toList
  newline_notMem : ∀ p ∈ g.productions, .term '\n' ∉ p.rhs

/-- The grammars whose lines of alternatives are not taken for declarations either. -/
structure NotationSafe (g : Grammar) : Prop extends Printable g where
  lhs_ne : ∀ p ∈ g.productions, g.name p.lhs ≠ "%nonterm"

variable {g : Grammar}

namespace Printable

theorem isField_name (hp : Printable g) {a : NonTerm} (h : a.index < g.size) :
    IsField (g.name a).toList :=
  hp.isField _ (Grammar.name_mem h)

theorem namesAreWords (hp : Printable g) (hg : g.WellFormed) {p : Production}
    (h : p ∈ g.productions) : NamesAreWords g p.rhs := by
  intro a ha
  obtain ⟨hbar, hsingle, hdouble⟩ := hp.isWord p h a ha
  obtain ⟨hne, hblank⟩ := hp.isField_name (hg.rhs_owned p h _ ha a rfl)
  refine ⟨hne, fun c hc ↦ ?_⟩
  have hquote : c ≠ '|' ∧ c ≠ '\'' ∧ c ≠ '"' := by
    refine ⟨?_, ?_, ?_⟩
    all_goals
      rintro rfl
      contradiction
  simp [isWordChar, isQuote, hblank c hc, hquote]

end Printable

/-! ## The shape of printed lines -/

/-- The alternatives of one line: there are some, none is empty, and each can be read. -/
structure Alternatives (g : Grammar) (as : List (List Symbol)) : Prop where
  ne_nil : as ≠ []
  forall_ne_nil : ∀ rhs ∈ as, rhs ≠ []
  namesAreWords : ∀ rhs ∈ as, NamesAreWords g rhs
  newline_notMem : ∀ rhs ∈ as, .term '\n' ∉ rhs

theorem toList_printRule (g : Grammar) (lhs : NonTerm) (as : List (List Symbol)) :
    (printRule g lhs as).toList = (g.name lhs).toList ++
      ' ' :: '-' :: '>' :: (" |".intercalate (as.map (printAlternative g))).toList := by
  simp [printRule]

theorem endsSolid_quote (c : Char) : EndsSolid (quote c).toList := by
  rw [quote]
  split
  case isTrue => exact ⟨'"', rfl, by decide⟩
  case isFalse => exact ⟨'\'', by simp, by decide⟩

theorem IsWord.isField {s : List Char} (hs : IsWord s) : IsField s :=
  ⟨hs.ne_nil, fun c hc ↦ isBlank_eq_false_of_isWordChar (hs.isWordChar c hc)⟩

theorem endsSolid_printAlternative {rhs : List Symbol} (hne : rhs ≠ [])
    (h : NamesAreWords g rhs) : EndsSolid (printAlternative g rhs).toList := by
  rw [toList_printAlternative]
  induction rhs with
  | nil => exact absurd rfl hne
  | cons x rhs ih =>
    rw [List.flatMap_cons]
    cases rhs with
    | nil =>
      have hx : EndsSolid (printSymbol g x).toList := by
        cases x with
        | term c => exact endsSolid_quote c
        | nonterm a => exact (h a (.head _)).isField.endsSolid
      simpa using hx.cons ' '
    | cons => exact (ih (by simp) fun a ha ↦ h a (.tail _ ha)).append_left _

theorem endsSolid_intercalate_printAlternative {as : List (List Symbol)}
    (has : Alternatives g as) :
    EndsSolid (" |".intercalate (as.map (printAlternative g))).toList := by
  obtain ⟨hne, hrhs, hwords, -⟩ := has
  induction as with
  | nil => exact absurd rfl hne
  | cons rhs as ih =>
    cases as with
    | nil => simpa using endsSolid_printAlternative (hrhs _ (.head _)) (hwords _ (.head _))
    | cons rhs' as =>
      rw [List.map_cons, List.map_cons, String.intercalate_cons_cons, String.toList_append]
      exact (ih (by simp) (fun rhs h ↦ hrhs rhs (.tail _ h))
        fun rhs h ↦ hwords rhs (.tail _ h)).append_left _

/-- A space follows the arrow. -/
theorem head?_intercalate_printAlternative {as : List (List Symbol)} (has : Alternatives g as) :
    (" |".intercalate (as.map (printAlternative g))).toList.head? = some ' ' := by
  obtain ⟨rhs, as, rfl⟩ := List.exists_cons_of_ne_nil has.ne_nil
  obtain ⟨x, rhs, rfl⟩ := List.exists_cons_of_ne_nil (has.forall_ne_nil rhs (.head _))
  cases as <;> simp [toList_printAlternative]

/-- A line of alternatives has three fields or more, and the second one is the arrow. -/
theorem fields_printRule {lhs : NonTerm} {as : List (List Symbol)}
    (hlhs : IsField (g.name lhs).toList) (has : Alternatives g as) :
    ∃ f fs, fields (printRule g lhs as).toList = (g.name lhs).toList :: ['-', '>'] :: f :: fs := by
  obtain ⟨f, fs, hfields⟩ :=
    List.exists_cons_of_ne_nil (endsSolid_intercalate_printAlternative has).fields_ne_nil
  have harrow := fields_append (s := ['-', '>']) (by decide)
    (t := (" |".intercalate (as.map (printAlternative g))).toList)
    fun c hc ↦ by
      obtain rfl := Option.mem_unique (head?_intercalate_printAlternative has) hc
      exact isBlank_space
  refine ⟨f, fs, ?_⟩
  rw [toList_printRule, fields_append hlhs (by simp), fields_cons_of_isBlank isBlank_space]
  exact congrArg _ (harrow.trans (congrArg _ hfields))

/-- No line is broken by a newline of its own. -/
theorem newline_notMem_printSymbol {x : Symbol} (hx : x ≠ .term '\n')
    (h : NamesAreWords g [x]) : '\n' ∉ (printSymbol g x).toList := by
  cases x with
  | term c =>
    have hc : '\n' ≠ c := fun heq ↦ hx (heq ▸ rfl)
    rw [printSymbol, quote]
    split <;> simp [hc]
  | nonterm a => exact (h a (.head _)).isField.newline_notMem

theorem newline_notMem_printRule {lhs : NonTerm} {as : List (List Symbol)}
    (hlhs : IsField (g.name lhs).toList) (has : Alternatives g as) :
    '\n' ∉ (printRule g lhs as).toList := by
  have halternative : ∀ rhs ∈ as, '\n' ∉ (printAlternative g rhs).toList := by
    intro rhs hrhs hmem
    rw [toList_printAlternative] at hmem
    obtain ⟨x, hx, hmem⟩ := List.mem_flatMap.1 hmem
    refine newline_notMem_printSymbol (fun heq ↦ has.newline_notMem rhs hrhs (heq ▸ hx))
      (fun a ha ↦ has.namesAreWords rhs hrhs a (List.mem_singleton.1 ha ▸ hx)) ?_
    simpa using hmem
  have halternatives : ∀ as' ⊆ as,
      '\n' ∉ (" |".intercalate (as'.map (printAlternative g))).toList := by
    intro as' hsub
    induction as' with
    | nil => simp
    | cons rhs as' ih =>
      obtain ⟨hrhs, hsub⟩ := List.cons_subset.1 hsub
      cases as' with
      | nil => simpa using halternative rhs hrhs
      | cons rhs' as' =>
        rw [List.map_cons, List.map_cons, String.intercalate_cons_cons]
        simpa [halternative rhs hrhs] using ih hsub
  rw [toList_printRule]
  simpa [hlhs.newline_notMem] using halternatives as (List.Subset.refl as)

/-! ## Lines of alternatives -/

/-- The line that is read where a line of alternatives was printed. -/
def ruleLine (g : Grammar) (lhs : NonTerm) (as : List (List Symbol)) : Line :=
  if g.name lhs = "%nonterm" then
    .declare ((fields (printRule g lhs as).toList).tail.map String.ofList)
  else .rule (g.name lhs) (as.map (·.map g.rawSymbol))

theorem read_printRule {lhs : NonTerm} {as : List (List Symbol)}
    (hlhs : IsLhs (g.name lhs).toList) (has : Alternatives g as) (number : Nat) :
    Line.read number (printRule g lhs as).toList = .ok (ruleLine g lhs as) := by
  have hsolid := endsSolid_intercalate_printAlternative has
  have htrim : trim (printRule g lhs as).toList = (printRule g lhs as).toList := by
    rw [toList_printRule]
    exact trim_eq_self (hlhs.isField.isTrimmed_append (((hsolid.cons _).cons _).cons _))
  have hcomment : (printRule g lhs as).toList.head? ≠ some '#' := by
    rw [toList_printRule]
    obtain ⟨c, s, hcons⟩ := List.exists_cons_of_ne_nil hlhs.isField.ne_nil
    simpa [hcons] using hlhs.head_ne
  obtain ⟨f, fs, hfields⟩ := fields_printRule hlhs.isField has
  rw [Line.read, htrim, ruleLine]
  split
  case isTrue hname =>
    rw [hname] at hfields
    rw [ofTrimmed_eq_declare hfields hcomment, hfields]
    rfl
  case isFalse hname =>
    have hnil : [] ∉ as.map (·.map g.rawSymbol) := fun hmem ↦ by
      obtain ⟨rhs, hrhs, heq⟩ := List.mem_map.1 hmem
      exact has.forall_ne_nil rhs hrhs (List.map_eq_nil_iff.1 heq)
    rw [ofTrimmed_eq_ruleOfTrimmed hfields hcomment (by simpa using hname),
      ruleOfTrimmed_eq_ok_iff, toList_printRule]
    exact ⟨_, _, _, splitRule?_append hlhs.isField hlhs.arrowFree _,
      alternatives?_intercalate_printAlternative has.ne_nil has.namesAreWords, hnil,
      by rw [String.ofList_toList]⟩

/-! ## Header lines -/

section Header

variable {keyword : List Char} {names : List (List Char)}

/-- A keyword and names are the fields of a header. -/
theorem fields_header (hkeyword : IsField keyword) (hnames : ∀ name ∈ names, IsField name) :
    fields (keyword ++ names.flatMap (' ' :: ·)) = keyword :: names := by
  rw [fields_append hkeyword, fields_flatMap_space hnames]
  cases names <;> simp

/-- A header that names something is read as it stands. -/
theorem read_header (hkeyword : IsField keyword) (hne : names ≠ [])
    (hnames : ∀ name ∈ names, IsField name) (number : Nat) :
    Line.read number (keyword ++ names.flatMap (' ' :: ·)) =
      Line.ofTrimmed number (keyword ++ names.flatMap (' ' :: ·)) := by
  obtain ⟨init, name, rfl⟩ := names.eq_nil_or_concat.resolve_left hne
  have hsolid : EndsSolid ((init.concat name).flatMap (' ' :: ·)) := by
    rw [List.concat_eq_append, List.flatMap_append, List.flatMap_singleton]
    exact ((hnames name (by simp)).endsSolid.cons ' ').append_left _
  rw [Line.read, trim_eq_self (hkeyword.isTrimmed_append hsolid)]

theorem newline_notMem_header (hkeyword : IsField keyword) (hnames : ∀ name ∈ names, IsField name) :
    '\n' ∉ keyword ++ names.flatMap (' ' :: ·) := by
  intro hmem
  rcases List.mem_append.1 hmem with hmem | hmem
  · exact hkeyword.newline_notMem hmem
  · obtain ⟨name, hname, hmem⟩ := List.mem_flatMap.1 hmem
    exact (hnames name hname).newline_notMem (by simpa using hmem)

end Header

/-! ## The printed text -/

/-- A line without a newline, read in one way whatever its number is. -/
structure ReadsAs (s : String) (line : Line) : Prop where
  newline_notMem : '\n' ∉ s.toList
  read : ∀ number, Line.read number s.toList = .ok line

theorem readLines_eq_ok {ls : List (List Char)} {out : List Line}
    (h : List.Forall₂ (fun l line ↦ ∀ number, Line.read number l = .ok line) ls out)
    (number : Nat) : readLines number ls = .ok out := by
  induction h generalizing number with
  | nil => rfl
  | cons hl _ ih =>
    rw [readLines, hl number, ih (number + 1)]
    rfl

theorem toList_print (g : Grammar) :
    (print g).toList = unlines ((printLines g).map (·.toList)) := by
  simp [print, unlines, String.toList_join, List.flatMap_map]

/-- The text ends with an empty line. -/
theorem lines_print {out : List Line} (h : List.Forall₂ ReadsAs (printLines g) out) :
    lines (print g).toList = (printLines g).map (·.toList) ++ [[]] := by
  have hnewline : ∀ s ∈ printLines g, '\n' ∉ s.toList := by
    have hand := h.imp fun s line hreads ↦
      (⟨hreads.newline_notMem, hreads⟩ : '\n' ∉ s.toList ∧ ReadsAs s line)
    exact ((List.forall₂_and_left _ _).1 hand).1
  rw [toList_print, lines_unlines (by simpa using hnewline)]

/-- The text is read line by line. -/
theorem linesOf_print {out : List Line} (h : List.Forall₂ ReadsAs (printLines g) out) :
    linesOf (print g) = .ok (out ++ [.empty]) := by
  rw [linesOf, lines_print h]
  refine readLines_eq_ok (List.rel_append (List.forall₂_map_left_iff.2 ?_)
    (.cons (fun _ ↦ rfl) .nil)) 1
  exact h.imp fun _ _ hreads ↦ hreads.read

theorem readsAs_startLine (hstart : IsField (g.name g.start).toList) :
    ReadsAs ("%start " ++ g.name g.start) (.start (g.name g.start)) := by
  have hlist : ("%start " ++ g.name g.start).toList =
      "%start".toList ++ [(g.name g.start).toList].flatMap (' ' :: ·) := by
    rw [String.toList_append, List.flatMap_singleton]
    rfl
  have hkeyword : IsField "%start".toList := by decide
  have hnames : ∀ name ∈ [(g.name g.start).toList], IsField name := by simpa using hstart
  refine ⟨hlist ▸ newline_notMem_header hkeyword hnames, fun number ↦ ?_⟩
  rw [hlist, read_header hkeyword (by simp) hnames,
    ofTrimmed_eq_start (fields_header hkeyword hnames) (by simp), String.ofList_toList]

theorem readsAs_declarationLine (hne : g.names ≠ [])
    (hnames : ∀ name ∈ g.names, IsField name.toList) :
    ReadsAs ("%nonterm" ++ String.join (g.nonterms.map (" " ++ g.name ·))) (.declare g.names) := by
  have hlist : ("%nonterm" ++ String.join (g.nonterms.map (" " ++ g.name ·))).toList =
      "%nonterm".toList ++ (g.names.map (·.toList)).flatMap (' ' :: ·) := by
    have hmap : g.nonterms.map (" " ++ g.name ·) = g.names.map (" " ++ ·) := by
      rw [← Grammar.map_name_nonterms g, List.map_map]
      rfl
    rw [String.toList_append, hmap, String.toList_join, List.flatMap_map, List.flatMap_map]
    simp
  have hkeyword : IsField "%nonterm".toList := by decide
  have hfields : ∀ name ∈ g.names.map (·.toList), IsField name := by simpa using hnames
  refine ⟨hlist ▸ newline_notMem_header hkeyword hfields, fun number ↦ ?_⟩
  rw [hlist, read_header hkeyword (by simpa using hne) hfields]
  have hheader := fields_header hkeyword hfields
  obtain ⟨name, names, hcons⟩ := List.exists_cons_of_ne_nil hne
  rw [hcons, List.map_cons] at hheader ⊢
  rw [ofTrimmed_eq_declare hheader (by simp)]
  simp

/-- The lines that are read where the runs of productions were printed. -/
def groupRead (g : Grammar) : List Production → List Line
  | [] => []
  | p :: ps => [ruleLine g p.lhs ((p :: ps).map (·.rhs))]

/-- The lines that are read from the printed text. -/
def printedLines (g : Grammar) : List Line :=
  (if g.name g.start = Grammar.defaultStart then [] else [.start (g.name g.start)]) ++
    (if numberedByRules g then [] else [.declare g.names]) ++
      (ruleGroups g).flatMap (groupRead g)

/-- A run of productions is a part of the productions. -/
theorem subset_of_mem_ruleGroups {ps : List Production} (h : ps ∈ ruleGroups g) :
    ps ⊆ g.productions := by
  intro p hp
  have hmem : p ∈ (ruleGroups g).flatten := List.mem_flatten.2 ⟨ps, h, hp⟩
  rwa [ruleGroups, List.flatten_splitBy] at hmem

/-- The productions of a run have one left-hand side. -/
theorem lhs_eq_of_mem_ruleGroups {p : Production} {ps : List Production}
    (h : p :: ps ∈ ruleGroups g) : ∀ q ∈ ps, p.lhs = q.lhs := by
  let SameLhs (p q : Production) : Prop := p.lhs = q.lhs
  have : Trans SameLhs SameLhs SameLhs := ⟨Eq.trans⟩
  have hchain : (p :: ps).IsChain SameLhs :=
    (List.isChain_of_mem_splitBy h).imp fun _ _ hbeq ↦ beq_iff_eq.1 hbeq
  exact (List.pairwise_cons.1 hchain.pairwise).1

theorem readsAs_groupLines (hg : g.WellFormed) (hp : Printable g) {ps : List Production}
    (h : ps ∈ ruleGroups g) : List.Forall₂ ReadsAs (groupLines g ps) (groupRead g ps) := by
  have hsub := subset_of_mem_ruleGroups h
  cases ps with
  | nil => exact .nil
  | cons p ps =>
    have hpmem := hsub (.head _)
    have hlhs : IsLhs (g.name p.lhs).toList :=
      ⟨hp.isField_name (hg.lhs_lt p hpmem), (hp.isLhs p hpmem).1, (hp.isLhs p hpmem).2⟩
    have has : Alternatives g ((p :: ps).map (·.rhs)) := by
      constructor
      case ne_nil => simp
      all_goals
        intro rhs hrhs
        obtain ⟨q, hq, rfl⟩ := List.mem_map.1 hrhs
      case forall_ne_nil => exact hg.rhs_ne_nil q (hsub hq)
      case namesAreWords => exact hp.namesAreWords hg (hsub hq)
      case newline_notMem => exact hp.newline_notMem q (hsub hq)
    exact .cons ⟨newline_notMem_printRule hlhs.isField has, read_printRule hlhs has⟩ .nil

theorem readsAs_printLines (hg : g.WellFormed) (hp : Printable g) :
    List.Forall₂ ReadsAs (printLines g) (printedLines g) := by
  have hne : g.names ≠ [] := List.ne_nil_of_mem (Grammar.name_mem hg.start_lt)
  refine List.rel_append (List.rel_append ?_ ?_) ?_
  · rw [startLines]
    split
    case isTrue => exact .nil
    case isFalse => exact .cons (readsAs_startLine (hp.isField_name hg.start_lt)) .nil
  · rw [declarationLines]
    split
    case isTrue => exact .nil
    case isFalse => exact .cons (readsAs_declarationLine hne hp.isField) .nil
  · have hsame : List.Forall₂ (fun ps qs ↦ ps = qs ∧ ps ∈ ruleGroups g) (ruleGroups g)
        (ruleGroups g) := List.forall₂_same.2 fun _ h ↦ ⟨rfl, h⟩
    refine List.rel_flatMap hsame ?_
    rintro ps _ ⟨rfl, h⟩
    exact readsAs_groupLines hg hp h

/-! ## What the builder is given -/

/-- A line of alternatives gives the rules of its productions, unless it is taken for a
declaration. -/
theorem steps_groupRead {ps : List Production} (h : ps ∈ ruleGroups g) :
    (∃ names : List String, (groupRead g ps).flatMap Line.steps = names.map .nonterm) ∧
        ps.filter (g.name ·.lhs ≠ "%nonterm") = [] ∨
      (groupRead g ps).flatMap Line.steps =
          ps.map (fun p ↦ .production (g.name p.lhs) (p.rhs.map g.rawSymbol)) ∧
        ps.filter (g.name ·.lhs ≠ "%nonterm") = ps := by
  cases ps with
  | nil => exact .inr ⟨rfl, rfl⟩
  | cons p ps =>
    have hlhs : ∀ q ∈ p :: ps, p.lhs = q.lhs :=
      List.forall_mem_cons.2 ⟨rfl, lhs_eq_of_mem_ruleGroups h⟩
    by_cases hname : g.name p.lhs = "%nonterm"
    · refine .inl ⟨⟨(fields (printRule g p.lhs ((p :: ps).map (·.rhs))).toList).tail.map
        String.ofList, ?_⟩, ?_⟩
      · rw [groupRead, ruleLine, if_pos hname, List.flatMap_singleton, Line.steps]
      · refine List.filter_eq_nil_iff.2 fun q hq ↦ ?_
        simp [← hlhs q hq, hname]
    · refine .inr ⟨?_, ?_⟩
      · rw [groupRead, ruleLine, if_neg hname, List.flatMap_singleton, Line.steps, List.map_map,
          List.map_map]
        refine List.map_congr_left fun q hq ↦ ?_
        rw [← hlhs q hq]
        rfl
      · refine List.filter_eq_self.2 fun q hq ↦ ?_
        simp [← hlhs q hq, hname]

/-- What the builder is given by the printed text. -/
def printedBuilder (g : Grammar) : Builder :=
  Builder.ofSteps ((printedLines g).flatMap Line.steps)

/-- The empty line at the end gives nothing. -/
theorem read_print (hg : g.WellFormed) (hp : Printable g) :
    read (print g) = (printedBuilder g).build := by
  have hempty : Line.empty.steps = [] := rfl
  rw [read, linesOf_print (readsAs_printLines hg hp), printedBuilder]
  change (Builder.ofSteps ((printedLines g ++ [Line.empty]).flatMap Line.steps)).build = _
  rw [List.flatMap_append, List.flatMap_singleton, hempty, List.append_nil]

/-- The steps of the header lines. -/
def headerSteps (g : Grammar) : List BuilderStep :=
  (if g.name g.start = Grammar.defaultStart then [] else [.start (g.name g.start)]) ++
    if numberedByRules g then [] else g.names.map .nonterm

theorem flatMap_steps_printedLines (g : Grammar) : (printedLines g).flatMap Line.steps =
    headerSteps g ++ (ruleGroups g).flatMap fun ps ↦ (groupRead g ps).flatMap Line.steps := by
  rw [printedLines, headerSteps, List.flatMap_append, List.flatMap_append, List.flatMap_assoc]
  congr 2
  · split <;> rfl
  · split <;> simp [Line.steps]

/-- The rules are those of the productions that are not on a line taken for a declaration. -/
theorem rules_printedBuilder (g : Grammar) : (printedBuilder g).rules =
    (g.productions.filter (g.name ·.lhs ≠ "%nonterm")).map g.rule := by
  have hheader : (headerSteps g).filterMap (·.rule?) = [] := by
    rw [headerSteps]
    split <;> split <;> simp [BuilderStep.rule?]
  have hgroup : ∀ ps ∈ ruleGroups g,
      ((groupRead g ps).flatMap Line.steps).filterMap (·.rule?) =
        (ps.filter (g.name ·.lhs ≠ "%nonterm")).map g.rule := by
    intro ps hps
    rcases steps_groupRead hps with ⟨⟨names, hsteps⟩, hfilter⟩ | ⟨hsteps, hfilter⟩
    · rw [hsteps, hfilter]
      simp [BuilderStep.rule?]
    · rw [hsteps, hfilter]
      simp [List.filterMap_map, BuilderStep.rule?, Grammar.rule]
  rw [printedBuilder, Builder.rules_ofSteps, flatMap_steps_printedLines, List.filterMap_append,
    hheader, List.nil_append, List.filterMap_flatMap]
  calc (ruleGroups g).flatMap (fun ps ↦ ((groupRead g ps).flatMap Line.steps).filterMap (·.rule?))
      = (ruleGroups g).flatMap fun ps ↦ (ps.filter (g.name ·.lhs ≠ "%nonterm")).map g.rule :=
        List.flatMap_congr hgroup
    _ = ((ruleGroups g).flatten.filter (g.name ·.lhs ≠ "%nonterm")).map g.rule := by
        rw [List.filter_flatten, List.map_flatten, List.map_map, List.flatMap_def]
        rfl
    _ = (g.productions.filter (g.name ·.lhs ≠ "%nonterm")).map g.rule := by
        rw [ruleGroups, List.flatten_splitBy]

/-- Without a left-hand side `%nonterm` no production is lost. -/
theorem NotationSafe.rules_printedBuilder (hs : NotationSafe g) :
    (printedBuilder g).rules = g.productions.map g.rule := by
  have hkeep : g.productions.filter (g.name ·.lhs ≠ "%nonterm") = g.productions :=
    List.filter_eq_self.2 fun p hp ↦ by simpa using hs.lhs_ne p hp
  rw [Notation.rules_printedBuilder, hkeep]

/-- No line of alternatives names the start symbol. -/
theorem start_printedBuilder (g : Grammar) :
    (printedBuilder g).start.getD Grammar.defaultStart = g.name g.start := by
  have hgroups : ((ruleGroups g).flatMap fun ps ↦ (groupRead g ps).flatMap Line.steps).filterMap
      (·.startName?) = [] := by
    rw [List.filterMap_flatMap, List.flatMap_eq_nil_iff]
    intro ps hps
    rcases steps_groupRead hps with ⟨⟨names, hsteps⟩, -⟩ | ⟨hsteps, -⟩
    all_goals
      rw [hsteps]
      simp [BuilderStep.startName?]
  rw [printedBuilder, Builder.start_ofSteps, flatMap_steps_printedLines, List.filterMap_append,
    hgroups, List.append_nil, headerSteps]
  split
  case isTrue hname => split <;> simp [BuilderStep.startName?, hname]
  case isFalse => split <;> simp [BuilderStep.startName?]

/-- Without a left-hand side `%nonterm`, only the header declares names. -/
theorem declared_printedBuilder (hs : NotationSafe g) :
    (printedBuilder g).declared = if numberedByRules g then [] else g.names := by
  have hgroups : ((ruleGroups g).flatMap fun ps ↦ (groupRead g ps).flatMap Line.steps).filterMap
      (·.declaredName?) = [] := by
    rw [List.filterMap_flatMap, List.flatMap_eq_nil_iff]
    intro ps hps
    rcases steps_groupRead hps with ⟨-, hfilter⟩ | ⟨hsteps, -⟩
    · have hnil : ps = [] := by
        rw [← hfilter, eq_comm, List.filter_eq_self]
        exact fun p hp ↦ by simpa using hs.lhs_ne p (subset_of_mem_ruleGroups hps hp)
      exact absurd (hnil ▸ hps) (List.nil_notMem_splitBy _ _)
    · rw [hsteps]
      simp [BuilderStep.declaredName?]
  rw [printedBuilder, Builder.declared_ofSteps, flatMap_steps_printedLines, List.filterMap_append,
    hgroups, List.append_nil, headerSteps]
  split <;> split <;> simp [BuilderStep.declaredName?]

end ContextFree.Notation
