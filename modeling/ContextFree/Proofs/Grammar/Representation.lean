import ContextFree.Proofs.Grammar.Alternatives
import ContextFree.Proofs.Grammar.Obtainable

/-!
# What every grammar can be relied upon for

Nothing checks an index that comes out of a grammar.  It need not be checked: in every grammar that
there is, each name leads back to its own number, no number is foreign, no right-hand side is empty,
and the alternatives of a non-terminal are its productions in ascending order.
-/

namespace ContextFree.Grammar

variable {g : Grammar}

/-- If no name is used twice, looking up a name gives the non-terminal that has it. -/
theorem lookup_name (hg : g.names.Nodup) {a : NonTerm} (h : a.index < g.size) :
    g.lookup (g.name a) = some a := by
  have hfirst : g.names.idxOf? (g.name a) = some a.index := by
    refine List.idxOf?_eq_some_iff.2 ⟨h, (name_of_lt h).symm, fun j hj heq ↦ ?_⟩
    exact Nat.ne_of_lt hj (hg.getElem_inj_iff.1 (heq.trans (name_of_lt h)))
  rw [lookup, hfirst]
  rfl

/-- What holds of every grammar that is built, read from a text, or made of such a grammar by
bringing it into binary form any number of times.  Names are distinct, so looking up the name of a
non-terminal gives the non-terminal; the start symbol and the symbols of all productions belong to
the grammar, and no right-hand side is empty; and the alternatives of a non-terminal, foreign or
not, are the productions that have it on their left-hand side, in strictly ascending order, as they
lie in its slot. -/
theorem Obtainable.representation (h : g.Obtainable) :
    g.names.Nodup ∧ (∀ a : NonTerm, a.index < g.size → g.lookup (g.name a) = some a) ∧
      g.start.index < g.size ∧
      (∀ p ∈ g.productions, p.rhs ≠ [] ∧ p.lhs.index < g.size ∧
        ∀ b, .nonterm b ∈ p.rhs → b.index < g.size) ∧
      g.slots.size = g.size ∧
      ∀ a, (g.alternatives a).Pairwise (·.index < ·.index) ∧
        (∀ p, p ∈ g.alternatives a ↔
          p.index < g.productions.length ∧ (g.production p).lhs = a) ∧
        (g.size ≤ a.index → g.alternatives a = []) ∧
        g.slots[a.index]?.getD [] = g.alternatives a := by
  have hg := h.wellFormed
  refine ⟨hg.names_nodup, fun a ↦ lookup_name hg.names_nodup, hg.start_lt, fun p hp ↦ ?_,
    g.size_slots, fun a ↦ ?_⟩
  · exact ⟨hg.rhs_ne_nil p hp, hg.lhs_lt p hp, fun b hb ↦ hg.rhs_owned p hp _ hb b rfl⟩
  · exact ⟨g.pairwise_alternatives a, fun p ↦ mem_alternatives_iff, alternatives_of_size_le hg,
      getD_slots hg a⟩

/-- Read from a text and brought into binary form, the rule `S -> a S b | X1` gives rise to helpers
whose productions are sorted in between those of the old non-terminals. -/
theorem representation_helpers :
    let g : Grammar := ⟨["S", "X1"], [⟨⟨0⟩, [.term 'a', .nonterm ⟨0⟩, .term 'b']⟩,
      ⟨⟨0⟩, [.nonterm ⟨1⟩]⟩, ⟨⟨1⟩, [.term 'c']⟩], ⟨0⟩⟩
    g.binarize.Obtainable ∧ g.binarize.size = 5 ∧
      g.binarize.lookup (g.binarize.name ⟨4⟩) = some ⟨4⟩ ∧
      g.binarize.slots[0]?.getD [] = g.binarize.alternatives ⟨0⟩ ∧
      g.binarize.alternatives ⟨5⟩ = [] := by
  intro g
  have hg : g.Obtainable := by
    refine @Obtainable.build [.production "S" [.term 'a', .nonterm "S", .term 'b'],
      .production "S" [.nonterm "X1"], .production "X1" [.term 'c']] g rfl
  have hinherited : g.inheritedProductions = [⟨⟨0⟩, [.term 'a', .nonterm ⟨0⟩, .term 'b']⟩,
      ⟨⟨0⟩, [.term 'c']⟩, ⟨⟨1⟩, [.term 'c']⟩] := by cbv
  have hsize : g.binarize.size = 5 := by
    rw [binarize, size, binarization_eq, hinherited]
    decide +kernel
  obtain ⟨-, hlookup, -, -, -, halternatives⟩ := hg.binarize.representation
  obtain ⟨-, -, -, hslots⟩ := halternatives ⟨0⟩
  obtain ⟨-, -, hforeign, -⟩ := halternatives ⟨5⟩
  exact ⟨hg.binarize, hsize, hlookup ⟨4⟩ (by rw [hsize]; decide), hslots,
    hforeign (Nat.le_of_eq hsize)⟩

end ContextFree.Grammar
