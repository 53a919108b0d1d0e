import ContextFree.Proofs.Grammar.Described
import ContextFree.Proofs.Notation.Numbering
import ContextFree.Proofs.Notation.Printed
import ContextFree.Proofs.Notation.Streams

/-!
# When the declarations can be left out

The printed text declares all non-terminals unless a walk over the left-hand sides finds that the
rules by themselves number them as the grammar does.  If the declarations are taken out of the text,
only the rules are left to number the names, with the start symbol last, and a name without a rule
is read as a row of terminals.  So the text is still read as the grammar in the cases of the walk,
and in one other case: the start symbol has the last number, and is not in any rule
(`declarations_superfluous_iff`).
-/

namespace ContextFree.Notation

open ContextFree.Text

variable {g : Grammar}

/-! ## Texts without declarations -/

/-- A text without its lines that declare non-terminals. -/
def withoutDeclarations (text : String) : String :=
  String.ofList (['\n'].intercalate
    ((lines text.toList).filter fun l ↦ lineKind (trim l) ≠ .declaration))

/-- The lines of the other kinds stay. -/
theorem linesOfKind_withoutDeclarations (text : String) (kind : LineKind)
    (hkind : kind ≠ .skipped) : linesOfKind kind (withoutDeclarations text) =
      if kind = .declaration then [] else linesOfKind kind text := by
  set ls := (lines text.toList).filter fun l ↦ lineKind (trim l) ≠ .declaration with hls
  have hlines : linesOfKind kind (withoutDeclarations text) =
      (ls.map trim).filter (lineKind · = kind) := by
    rw [linesOfKind, trimmedLines_eq, withoutDeclarations, ← hls, String.toList_ofList]
    by_cases hne : ls = []
    · -- a text without any line has one all the same, which is blank
      have hblank : ¬lineKind (trim []) = kind := fun heq ↦ hkind heq.symm
      simp [hne, hblank]
    · rw [lines_intercalate hne fun l hl ↦
        newline_notMem_of_mem_lines (List.mem_of_mem_filter hl)]
  rw [hlines, hls, linesOfKind, trimmedLines_eq, List.filter_map, List.filter_map,
    List.filter_filter]
  split
  case isTrue hdeclaration =>
    rw [List.map_eq_nil_iff, List.filter_eq_nil_iff]
    simp [hdeclaration]
  case isFalse hother =>
    refine congrArg _ (List.filter_congr fun l _ ↦ ?_)
    have hne : lineKind (trim l) = kind → lineKind (trim l) ≠ .declaration := fun heq ↦ heq ▸ hother
    rw [Bool.eq_iff_iff]
    simpa using hne

theorem builderOf?_withoutDeclarations (text : String) :
    builderOf? (withoutDeclarations text) =
      (builderOf? text).map fun b ↦ { b with declared := [] } := by
  rw [builderOf?, builderOf?, linesOfKind_withoutDeclarations text .rule (by decide),
    linesOfKind_withoutDeclarations text .start (by decide),
    linesOfKind_withoutDeclarations text .declaration (by decide), Option.map_map]
  rfl

/-! ## The printed text without its header -/

/-- The text of a grammar without the line that declares the non-terminals. -/
def printUndeclared (g : Grammar) : String :=
  String.join ((startLines g ++ (ruleGroups g).flatMap (groupLines g)).map (· ++ "\n"))

theorem toList_printUndeclared (g : Grammar) : (printUndeclared g).toList =
    unlines ((startLines g ++ (ruleGroups g).flatMap (groupLines g)).map (·.toList)) := by
  simp [printUndeclared, unlines, String.toList_join, List.flatMap_map]

/-- A line declares non-terminals just if it is read as doing so. -/
theorem ReadsAs.lineKind_eq_declaration_iff {s : String} {line : Line} (h : ReadsAs s line) :
    lineKind (trim s.toList) = .declaration ↔ ∃ names, line = .declare names := by
  have hread := h.read 0
  rw [Line.read, ofTrimmed_eq] at hread
  cases hkind : lineKind (trim s.toList) with
  | skipped | start | declaration =>
    rw [hkind] at hread
    cases hread
    simp
  | rule =>
    rw [hkind] at hread
    obtain ⟨lhs, rhs, as, -, -, -, rfl⟩ := ruleOfTrimmed_eq_ok_iff.1 hread
    simp

theorem lineKind_startLine (hg : g.WellFormed) (hp : Printable g) {s : String}
    (h : s ∈ startLines g) : lineKind (trim s.toList) ≠ .declaration := by
  rw [startLines] at h
  split at h
  case isTrue => cases h
  case isFalse =>
    obtain rfl := List.mem_singleton.1 h
    have hreads := readsAs_startLine (hp.isField_name hg.start_lt)
    rw [Ne, hreads.lineKind_eq_declaration_iff]
    rintro ⟨_, ⟨⟩⟩

theorem lineKind_declarationLine (hg : g.WellFormed) (hp : Printable g) {s : String}
    (h : s ∈ declarationLines g) : lineKind (trim s.toList) = .declaration := by
  rw [declarationLines] at h
  split at h
  case isTrue => cases h
  case isFalse =>
    obtain rfl := List.mem_singleton.1 h
    have hne : g.names ≠ [] := List.ne_nil_of_mem (Grammar.name_mem hg.start_lt)
    exact (readsAs_declarationLine hne hp.isField).lineKind_eq_declaration_iff.2 ⟨_, rfl⟩

theorem lineKind_groupLine (hg : g.WellFormed) (hs : NotationSafe g) {s : String}
    (h : s ∈ (ruleGroups g).flatMap (groupLines g)) :
    lineKind (trim s.toList) ≠ .declaration := by
  obtain ⟨ps, hps, hmem⟩ := List.mem_flatMap.1 h
  have hreads := readsAs_groupLines hg hs.toPrintable hps
  cases ps with
  | nil => cases hmem
  | cons p ps =>
    obtain rfl := List.mem_singleton.1 hmem
    obtain ⟨hreads, -⟩ := List.forall₂_cons.1 hreads
    rw [ruleLine, if_neg (hs.lhs_ne p (subset_of_mem_ruleGroups hps (.head _)))] at hreads
    rw [Ne, hreads.lineKind_eq_declaration_iff]
    rintro ⟨_, ⟨⟩⟩

/-- Of the printed text, nothing but the header goes. -/
theorem withoutDeclarations_print (hg : g.WellFormed) (hs : NotationSafe g) :
    withoutDeclarations (print g) = printUndeclared g := by
  have hkeep : ((lines (print g).toList).filter fun l ↦ lineKind (trim l) ≠ .declaration) =
      (startLines g ++ (ruleGroups g).flatMap (groupLines g)).map (·.toList) ++ [[]] := by
    have hstart : ∀ s ∈ startLines g, lineKind (trim s.toList) ≠ .declaration :=
      fun s ↦ lineKind_startLine hg hs.toPrintable
    have hheader : ∀ s ∈ declarationLines g, lineKind (trim s.toList) = .declaration :=
      fun s ↦ lineKind_declarationLine hg hs.toPrintable
    have hrules : ∀ s ∈ (ruleGroups g).flatMap (groupLines g),
        lineKind (trim s.toList) ≠ .declaration := fun s ↦ lineKind_groupLine hg hs
    rw [lines_print (readsAs_printLines hg hs.toPrintable), printLines, List.filter_append,
      List.filter_map, List.filter_append, List.filter_append,
      List.filter_eq_self.2 (by simpa using hstart),
      List.filter_eq_nil_iff.2 (by simpa using hheader),
      List.filter_eq_self.2 (by simpa using hrules), List.append_nil]
    rfl
  rw [withoutDeclarations, hkeep, intercalate_append_nil, ← toList_printUndeclared,
    String.ofList_toList]

/-- What the printed text gives the builder without its declarations. -/
def undeclaredBuilder (g : Grammar) : Builder := { printedBuilder g with declared := [] }

theorem read_withoutDeclarations_print (hg : g.WellFormed) (hp : Printable g) {g' : Grammar} :
    read (withoutDeclarations (print g)) = .ok g' ↔ (undeclaredBuilder g).build = .ok g' := by
  have hprinted : builderOf? (print g) = some (printedBuilder g) := by
    rw [builderOf?_of_linesOf (linesOf_print (readsAs_printLines hg hp)), printedBuilder,
      List.flatMap_append]
    simp [Line.steps]
  rw [read_eq_ok_iff, builderOf?_withoutDeclarations, hprinted]
  simp [undeclaredBuilder]

/-! ## Building from the rules alone -/

/-- The left-hand sides of the productions, in their order. -/
def leftSides (g : Grammar) : List NonTerm := g.productions.map (·.lhs)

/-- A name on a right-hand side is only read as a name if it is defined. -/
theorem name_mem_of_mem_spellSymbol {defined : List String} {s : Symbol} {name : String}
    (h : .inr name ∈ Builder.spellSymbol defined (g.rawSymbol s)) : name ∈ defined := by
  cases s with
  | term c => simp [Grammar.rawSymbol, Builder.spellSymbol] at h
  | nonterm a =>
    rw [Grammar.rawSymbol, Builder.spellSymbol] at h
    split at h
    case isTrue hmem =>
      obtain rfl : name = g.name a := by simpa using h
      exact hmem
    case isFalse => simp at h

/-- A production reads as its rule just if all names on its right-hand side are defined. -/
theorem spell_eq_spellRule_iff {defined : List String} {p : Production} :
    p.spell g.name = Builder.spellRule defined (g.rule p) ↔
      ∀ a, .nonterm a ∈ p.rhs → g.name a ∈ defined := by
  have hrule : Builder.spellRule defined (g.rule p) =
      (g.name p.lhs, p.rhs.flatMap fun s ↦ Builder.spellSymbol defined (g.rawSymbol s)) := by
    rw [Builder.spellRule, Grammar.rule, RawRhs.raw, List.flatMap_map]
  rw [hrule, Production.spell, Prod.mk.injEq, and_iff_right rfl]
  constructor
  · intro h a ha
    have hmem : .inr (g.name a) ∈ p.rhs.map (·.spell g.name) := List.mem_map.2 ⟨_, ha, rfl⟩
    rw [h] at hmem
    obtain ⟨s, -, hs⟩ := List.mem_flatMap.1 hmem
    exact name_mem_of_mem_spellSymbol hs
  · intro h
    rw [List.map_eq_flatMap]
    refine List.flatMap_congr fun s hs ↦ ?_
    cases s with
    | term c => rfl
    | nonterm a => rw [Grammar.rawSymbol, Builder.spellSymbol, if_pos (h a hs), Symbol.spell_nonterm]

section Undeclared

variable (hs : NotationSafe g)

include hs

theorem rules_undeclaredBuilder : (undeclaredBuilder g).rules = g.productions.map g.rule :=
  hs.rules_printedBuilder

/-- No name is defined but those of the left-hand sides. -/
theorem defined_undeclaredBuilder : (undeclaredBuilder g).defined = (leftSides g).map g.name := by
  rw [Builder.defined, rules_undeclaredBuilder hs, leftSides, List.map_map, List.map_map]
  rfl

/-- Names on right-hand sides are words. -/
theorem markedNames_undeclaredBuilder : (undeclaredBuilder g).markedNames = [] := by
  rw [Builder.markedNames, rules_undeclaredBuilder hs, List.flatMap_map, List.flatMap_eq_nil_iff]
  intro p _
  rw [Grammar.rule, RawRhs.raw, List.filterMap_map, List.filterMap_eq_nil_iff]
  intro s _
  cases s <;> rfl

/-- The names are numbered as the grammar numbers them if its left-hand sides, with the start symbol
behind them, first occur in the order of their numbers. -/
theorem names_eq_asked_iff (hg : g.WellFormed) :
    g.names = (undeclaredBuilder g).askedNames.eraseDups ↔
      (leftSides g ++ [g.start]).eraseDups = g.nonterms := by
  have hlt : ∀ a ∈ leftSides g ++ [g.start], a.index < g.size := by
    simpa [leftSides, or_imp, forall_and] using ⟨hg.lhs_lt, hg.start_lt⟩
  have hlt' : ∀ a ∈ (leftSides g ++ [g.start]).eraseDups, a.index < g.size :=
    fun a ha ↦ hlt a (List.mem_eraseDups.1 ha)
  have hstart : (undeclaredBuilder g).startName = g.name g.start := start_printedBuilder g
  have hasked : (undeclaredBuilder g).askedNames.eraseDups =
      (leftSides g ++ [g.start]).eraseDups.map g.name := by
    rw [Builder.eraseDups_askedNames, defined_undeclaredBuilder hs,
      markedNames_undeclaredBuilder hs, hstart, List.append_nil, ← List.map_singleton,
      ← List.map_append]
    exact eraseDups_map fun a ha b hb ↦ Grammar.name_injective hg (hlt a ha) (hlt b hb)
  have hmap := Grammar.map_name_inj hg hlt' fun a ↦ Grammar.mem_nonterms.1
  rw [hasked, ← hmap, Grammar.map_name_nonterms, eq_comm]

/-- A production reads as its rule if all non-terminals on its right-hand side have a rule. -/
theorem spell_eq_spellRule_undeclared_iff (hg : g.WellFormed) {p : Production}
    (hp : p ∈ g.productions) :
    p.spell g.name = Builder.spellRule (undeclaredBuilder g).defined (g.rule p) ↔
      ∀ a, .nonterm a ∈ p.rhs → a ∈ leftSides g := by
  rw [spell_eq_spellRule_iff, defined_undeclaredBuilder hs]
  refine forall₂_congr fun a ha ↦ ⟨fun hmem ↦ ?_, List.mem_map_of_mem⟩
  obtain ⟨b, hb, heq⟩ := List.mem_map.1 hmem
  obtain ⟨q, hq, rfl⟩ := List.mem_map.1 hb
  exact Grammar.name_injective hg (hg.lhs_lt q hq) (hg.rhs_owned p hp _ ha a rfl) heq ▸ hb

theorem buildable_undeclaredBuilder (hg : g.WellFormed)
    (h : ∀ p ∈ g.productions, ∀ a, .nonterm a ∈ p.rhs → a ∈ leftSides g) :
    (undeclaredBuilder g).Buildable := by
  constructor
  case declared_ne => nofun
  case lhs_ne =>
    rw [rules_undeclaredBuilder hs]
    refine List.forall_mem_map.2 fun p hp hempty ↦ ?_
    have hname : g.name p.lhs = "" := hempty
    exact (hs.isField_name (hg.lhs_lt p hp)).ne_nil (by rw [hname]; rfl)
  case rhs_ne =>
    rw [rules_undeclaredBuilder hs]
    refine List.forall_mem_map.2 fun p hp hnil ↦ hg.rhs_ne_nil p hp ?_
    rw [← (spell_eq_spellRule_undeclared_iff hs hg hp).2 (h p hp)] at hnil
    exact List.map_eq_nil_iff.1 hnil

/-- Without declarations the left-hand sides are numbered first and the start symbol last, and no
other non-terminal is told from its characters. -/
theorem build_undeclaredBuilder_iff (hg : g.WellFormed) : (undeclaredBuilder g).build = .ok g ↔
    (leftSides g ++ [g.start]).eraseDups = g.nonterms ∧
      ∀ p ∈ g.productions, ∀ a, .nonterm a ∈ p.rhs → a ∈ leftSides g := by
  have hproductions : g.productions.map (·.spell g.name) =
        (undeclaredBuilder g).rules.map (Builder.spellRule (undeclaredBuilder g).defined) ↔
      ∀ p ∈ g.productions, ∀ a, .nonterm a ∈ p.rhs → a ∈ leftSides g := by
    rw [rules_undeclaredBuilder hs, List.map_map, List.map_inj_left]
    exact forall₂_congr fun p hp ↦ spell_eq_spellRule_undeclared_iff hs hg hp
  rw [Builder.build_eq_ok_iff hg, ← names_eq_asked_iff hs hg]
  constructor
  · exact fun ⟨_, hspells⟩ ↦ ⟨hspells.names, hproductions.1 hspells.productions⟩
  · exact fun ⟨hnames, hrhs⟩ ↦ ⟨buildable_undeclaredBuilder hs hg hrhs, hnames,
      hproductions.2 hrhs, (start_printedBuilder g).symm⟩

end Undeclared

/-! ## The two cases -/

theorem mem_leftSides {a : NonTerm} : a ∈ leftSides g ↔ ∃ p ∈ g.productions, p.lhs = a :=
  List.mem_map

/-- The rules number all non-terminals but the start symbol, which has the last number and is not in
any rule. -/
structure NumberedButStart (g : Grammar) : Prop where
  numbered : (leftSides g).eraseDups = (List.range (g.size - 1)).map NonTerm.mk
  start_eq : g.start = ⟨g.size - 1⟩
  lhs_ne : ∀ p ∈ g.productions, p.lhs ≠ g.start
  notMem_rhs : ∀ p ∈ g.productions, .nonterm g.start ∉ p.rhs

theorem NumberedByRules.mem_leftSides (h : NumberedByRules g) {a : NonTerm}
    (ha : a.index < g.size) : a ∈ leftSides g := by
  rw [← List.mem_eraseDups, leftSides, h]
  exact Grammar.mem_nonterms.2 ha

theorem NumberedButStart.start_notMem (h : NumberedButStart g) : g.start ∉ leftSides g := by
  intro hmem
  obtain ⟨p, hp, heq⟩ := Notation.mem_leftSides.1 hmem
  exact h.lhs_ne p hp heq

/-- Only the last non-terminal is none of the others. -/
theorem NumberedButStart.mem_leftSides (h : NumberedButStart g) {a : NonTerm}
    (ha : a.index < g.size) (hne : a ≠ g.start) : a ∈ leftSides g := by
  have hindex : a.index ≠ g.size - 1 := fun heq ↦ hne (h.start_eq ▸ NonTerm.ext heq)
  rw [← List.mem_eraseDups, h.numbered]
  exact List.mem_map.2 ⟨a.index, List.mem_range.2 (by omega), rfl⟩

/-- A start symbol with a rule is numbered by its rule. -/
theorem build_iff_of_mem (hg : g.WellFormed) (hs : NotationSafe g)
    (hstart : g.start ∈ leftSides g) : (undeclaredBuilder g).build = .ok g ↔ NumberedByRules g := by
  rw [build_undeclaredBuilder_iff hs hg, eraseDups_append_of_subset (by simpa using hstart)]
  refine and_iff_left_of_imp fun hnumbered p hp a ha ↦ ?_
  exact NumberedByRules.mem_leftSides hnumbered (hg.rhs_owned p hp _ ha a rfl)

/-- A start symbol without a rule is numbered last. -/
theorem build_iff_of_notMem (hg : g.WellFormed) (hs : NotationSafe g)
    (hstart : g.start ∉ leftSides g) : (undeclaredBuilder g).build = .ok g ↔ NumberedButStart g := by
  have hbehind : (leftSides g ++ [g.start]).eraseDups = (leftSides g).eraseDups ++ [g.start] := by
    rw [List.eraseDups_append]
    simp [List.removeAll, hstart, List.eraseDups_cons]
  have hnonterms : g.nonterms = (List.range (g.size - 1)).map NonTerm.mk ++ [⟨g.size - 1⟩] := by
    obtain ⟨n, hn⟩ := Nat.exists_eq_add_of_lt hg.start_lt
    rw [Grammar.nonterms, hn, Nat.add_sub_cancel, List.range_succ, List.map_append,
      List.map_singleton]
  rw [build_undeclaredBuilder_iff hs hg, hbehind, hnonterms, List.append_singleton_inj]
  constructor
  · rintro ⟨⟨hnumbered, hlast⟩, hrhs⟩
    refine ⟨hnumbered, hlast, fun p hp heq ↦ ?_, fun p hp hmem ↦ hstart (hrhs p hp _ hmem)⟩
    exact hstart (mem_leftSides.2 ⟨p, hp, heq⟩)
  · intro h
    refine ⟨⟨h.numbered, h.start_eq⟩, fun p hp a ha ↦ ?_⟩
    apply h.mem_leftSides (hg.rhs_owned p hp _ ha a rfl)
    rintro rfl
    exact h.notMem_rhs p hp ha

/-- The header is left out just if the walk over the left-hand sides finds them in order.  Without
it, if there is one, the text consists of the other lines, and it is read as the grammar in two cases
only: there was no header, or the rules number all non-terminals but the start symbol. -/
theorem declarations_superfluous_iff (hg : g.WellFormed) (hs : NotationSafe g) :
    (declarationLines g = [] ↔ numberedByRules g = true) ∧
      withoutDeclarations (print g) = printUndeclared g ∧
      (read (withoutDeclarations (print g)) = .ok g ↔
        numberedByRules g = true ∨ NumberedButStart g) := by
  refine ⟨?_, withoutDeclarations_print hg hs, ?_⟩
  · rw [declarationLines]
    split <;> simp_all
  · rw [read_withoutDeclarations_print hg hs.toPrintable, numberedByRules_iff]
    by_cases hstart : g.start ∈ leftSides g
    · rw [build_iff_of_mem hg hs hstart]
      exact (or_iff_left fun h ↦ h.start_notMem hstart).symm
    · rw [build_iff_of_notMem hg hs hstart]
      exact (or_iff_right fun h ↦ hstart (h.mem_leftSides hg.start_lt)).symm

/-- Of the grammars `A → a B | B`, `B → b A` and `A → a B | S`, `B → b A` with a start symbol `S`
behind `A` and `B`, only the first one can do without the declarations. -/
theorem declarations_superfluous_iff_start :
    let g : Grammar := ⟨["A", "B", "S"], [⟨⟨0⟩, [.term 'a', .nonterm ⟨1⟩]⟩,
      ⟨⟨0⟩, [.nonterm ⟨1⟩]⟩, ⟨⟨1⟩, [.term 'b', .nonterm ⟨0⟩]⟩], ⟨2⟩⟩
    let g' : Grammar := ⟨["A", "B", "S"], [⟨⟨0⟩, [.term 'a', .nonterm ⟨1⟩]⟩,
      ⟨⟨0⟩, [.nonterm ⟨2⟩]⟩, ⟨⟨1⟩, [.term 'b', .nonterm ⟨0⟩]⟩], ⟨2⟩⟩
    (g.WellFormed ∧ NotationSafe g) ∧ (g'.WellFormed ∧ NotationSafe g') ∧
      print g = "%nonterm A B S\nA -> 'a' B | B\nB -> 'b' A\n" ∧
      read "A -> 'a' B | B\nB -> 'b' A\n" = .ok g ∧
      print g' = "%nonterm A B S\nA -> 'a' B | S\nB -> 'b' A\n" ∧
      read "A -> 'a' B | S\nB -> 'b' A\n" ≠ .ok g' := by
  intro g g'
  have hg : g.WellFormed := by decide
  have hg' : g'.WellFormed := by decide
  have hwords : ∀ a ∈ g.nonterms,
      '|' ∉ (g.name a).toList ∧ '\'' ∉ (g.name a).toList ∧ '"' ∉ (g.name a).toList := by decide
  have hs : NotationSafe g := ⟨⟨by decide, fun p hp a ha ↦
    hwords a (Grammar.mem_nonterms.2 (hg.rhs_owned p hp _ ha a rfl)), by decide, by decide⟩,
    by decide⟩
  have hs' : NotationSafe g' := ⟨⟨by decide, fun p hp a ha ↦
    hwords a (Grammar.mem_nonterms.2 (hg'.rhs_owned p hp _ ha a rfl)), by decide, by decide⟩,
    by decide⟩
  obtain ⟨-, htext, hread⟩ := declarations_superfluous_iff hg hs
  obtain ⟨-, htext', hread'⟩ := declarations_superfluous_iff hg' hs'
  have hprint : printUndeclared g = "A -> 'a' B | B\nB -> 'b' A\n" := by decide
  have hprint' : printUndeclared g' = "A -> 'a' B | S\nB -> 'b' A\n" := by decide
  rw [htext, hprint] at hread
  rw [htext', hprint'] at hread'
  refine ⟨⟨hg, hs⟩, ⟨hg', hs'⟩, by decide, hread.2 (.inr ?_), by decide, fun hsame ↦ ?_⟩
  · exact ⟨by decide, rfl, by decide, by decide⟩
  · rcases hread'.1 hsame with hnumbered | hbut
    · exact absurd hnumbered (by decide)
    · exact absurd hbut.notMem_rhs (by decide)

end ContextFree.Notation
