import ContextFree.Proofs.Notation.Numbering
import ContextFree.Proofs.Notation.Readable

/-!
# Printing and reading back

Printed text is read as the grammar that it was printed from, if symbols and lines are kept apart
(`read_print_of_notationSafe`).  A grammar that was itself read from a text meets all conditions
but one: its left-hand sides may have the name `%nonterm`.  If one has it, then its line is taken
for a declaration and its productions are lost (`read_print_of_read_iff`).
-/

namespace ContextFree.Notation

open ContextFree.Text

variable {g : Grammar}

/-- The names that the printed text defines first occur in the order of their numbers: either the
left-hand sides do, or all names are declared. -/
theorem eraseDups_defined_printedBuilder (hg : g.WellFormed) (hs : NotationSafe g) :
    (printedBuilder g).defined.eraseDups = g.names := by
  have hlhs : (printedBuilder g).rules.map (·.lhs) = (g.productions.map (·.lhs)).map g.name := by
    rw [hs.rules_printedBuilder, List.map_map, List.map_map]
    rfl
  have hlt : ∀ a ∈ g.productions.map (·.lhs), a.index < g.size := by simpa using hg.lhs_lt
  rw [Builder.defined, declared_printedBuilder hs, hlhs]
  split
  case isTrue hnumbered =>
    rw [List.nil_append, (numberedByRules_iff.1 hnumbered).eraseDups_names hg]
  case isFalse =>
    have hsub : (g.productions.map (·.lhs)).map g.name ⊆ g.names := by
      intro name hname
      obtain ⟨a, ha, rfl⟩ := List.mem_map.1 hname
      exact Grammar.name_mem (hlt a ha)
    rw [eraseDups_append_of_subset hsub, eraseDups_eq_self hg.names_nodup]

/-- What the printed text gives the builder makes up the grammar. -/
theorem build_printedBuilder (hg : g.WellFormed) (hs : NotationSafe g) :
    (printedBuilder g).build = .ok g := by
  have hempty : "" ∉ g.names := fun hmem ↦ (hs.isField _ hmem).ne_nil rfl
  exact Builder.build_eq_ok hg hempty hs.rules_printedBuilder (start_printedBuilder g)
    (eraseDups_defined_printedBuilder hg hs)

/-- Printing and reading back gives the grammar again. -/
theorem read_print_of_notationSafe (hg : g.WellFormed) (hs : NotationSafe g) :
    read (print g) = .ok g := by
  rw [read_print hg hs.toPrintable, build_printedBuilder hg hs]

/-- Blanks, bars and both quotes as terminals, a left-hand side with a quote, one that looks like an
arrow, and a start symbol that looks like a comment and has no production. -/
theorem read_print_of_notationSafe_quotes :
    let g : Grammar := ⟨["E'", "#", "->"], [⟨⟨0⟩, [.term ' ', .nonterm ⟨2⟩, .term '\'']⟩,
      ⟨⟨0⟩, [.term '"', .term '|']⟩, ⟨⟨2⟩, [.term '-', .term '>']⟩], ⟨1⟩⟩
    g.WellFormed ∧ NotationSafe g ∧
      print g = "%start #\n%nonterm E' # ->\nE' -> ' ' -> \"'\" | '\"' '|'\n-> -> '-' '>'\n" ∧
      read (print g) = .ok g := by
  intro g
  have hg : g.WellFormed := by decide
  have hs : NotationSafe g := by
    refine ⟨⟨by decide, ?_, by decide, by decide⟩, by decide⟩
    intro p hp a ha
    have ha : a = ⟨2⟩ := by
      simp only [g, List.mem_cons, List.not_mem_nil, or_false] at hp
      rcases hp with rfl | rfl | rfl
      · simpa using ha
      · simp at ha
      · simp at ha
    subst ha
    decide
  exact ⟨hg, hs, by decide, read_print_of_notationSafe hg hs⟩

/-- A grammar that was read survives printing and reading just if no left-hand side has the name
`%nonterm`. -/
theorem read_print_of_read_iff {text : String} (h : read text = .ok g) :
    read (print g) = .ok g ↔ ∀ p ∈ g.productions, g.name p.lhs ≠ "%nonterm" := by
  have hg : g.WellFormed := (Grammar.Obtainable.read h).wellFormed
  have hp := printable_of_read h
  rw [read_print hg hp]
  constructor
  · intro hbuild p hmem
    -- fewer rules could not have given all productions
    have hlength := (Builder.resolves_of_build hbuild).1
    rw [rules_printedBuilder, List.length_map] at hlength
    simpa using List.length_filter_eq_length_iff.1 hlength.symm p hmem
  · exact fun hne ↦ build_printedBuilder hg ⟨hp, hne⟩

/-- Left-hand sides that are nearly a declaration, an arrow or a start line, and a start symbol that
no rule has. -/
theorem read_print_of_read_iff_percent :
    let text := "%start #T\n%nonterms->'|' :\n:::=\"'\"\n%start::=b :\n"
    let g : Grammar := ⟨["%nonterms", ":", "%start", "#T"],
      [⟨⟨0⟩, [.term '|', .nonterm ⟨1⟩]⟩, ⟨⟨1⟩, [.term '\'']⟩,
        ⟨⟨2⟩, [.term 'b', .nonterm ⟨1⟩]⟩], ⟨3⟩⟩
    read text = .ok g ∧ read (print g) = .ok g := by
  intro text g
  have h : read text = .ok g := by decide +kernel
  exact ⟨h, (read_print_of_read_iff h).2 (by decide)⟩

/-- The rule of a non-terminal `%nonterm`, printed with spaces, is read as a declaration of the
arrow and of the quoted terminal. -/
theorem read_print_ne_of_lhs_declaration :
    let g : Grammar := ⟨["%nonterm", "S"], [⟨⟨0⟩, [.term 'a']⟩], ⟨1⟩⟩
    read "%nonterm->a" = .ok g ∧ print g = "%nonterm %nonterm S\n%nonterm -> 'a'\n" ∧
      read (print g) = .ok ⟨["%nonterm", "S", "->", "'a'"], [], ⟨1⟩⟩ ∧ read (print g) ≠ .ok g := by
  intro g
  have hread : read "%nonterm->a" = .ok g := by decide +kernel
  have hagain : read (print g) = .ok ⟨["%nonterm", "S", "->", "'a'"], [], ⟨1⟩⟩ := by decide +kernel
  refine ⟨hread, by decide, hagain, ?_⟩
  rw [hagain, Ne, Except.ok.injEq]
  decide

end ContextFree.Notation
