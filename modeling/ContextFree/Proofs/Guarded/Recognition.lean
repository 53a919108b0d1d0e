import ContextFree.Proofs.Grammar.Obtainable
import ContextFree.Proofs.Guarded.Cyk
import ContextFree.Proofs.Guarded.Earley

/-!
# Nothing goes wrong in recognition

With guarded operations, each recognizer and each query to the chart that it hands back has a
result, and it is the same as without the guards.  So no operation of theirs goes wrong.  All that
this takes is a grammar and an input that lie in memory and a limit that is a word.  A table whose
cells or words cannot be numbered is not asked for.
-/

namespace ContextFree

open Guarded

variable {g : Grammar} {w : List Char} {limits : Limits}

/-- Nothing goes wrong in recognition.  From left to right, neither a run that comes to its end nor
one that a limit stops looks beside an array or computes what is not a word, and the question whether
the chart accepts does not either.  Bottom-up, the same is true of asking for a table, of filling it
and of whatever the chart is asked for, be it a span that is reversed or out of bounds or a foreign
non-terminal. -/
theorem nothing_goes_wrong (hg : g.Obtainable) (hw : InMemory g w)
    (hlimit : limits.maxStates < UInt64.size) :
    (Earley.Guarded.recognize g w limits = some (Earley.recognize g w limits) ∧
      ∀ c, (Earley.recognize g w limits).chart = some c →
        Earley.Guarded.accepts c = some c.accepts) ∧
    ∀ memory, Cyk.Guarded.recognize g w limits memory = some (Cyk.recognize g w limits memory) ∧
      ∀ c, (Cyk.recognize g w limits memory).chart = some c → Cyk.Guarded.Answers c :=
  ⟨Earley.Guarded.recognize_eq hg.wellFormed hw hlimit,
    Cyk.Guarded.recognize_eq hg.wellFormed (lt_size_of_lt hw.size_lt) limits⟩

/-- The chart of `a a a` in `S → S S | a` is asked for a non-terminal and a span that are as large as
words can be, and for the derivation of the whole input. -/
theorem nothing_goes_wrong_ambiguous :
    let g : Grammar := ⟨["S"], [⟨⟨0⟩, [.nonterm ⟨0⟩, .nonterm ⟨0⟩]⟩, ⟨⟨0⟩, [.term 'a']⟩], ⟨0⟩⟩
    let w := ['a', 'a', 'a']
    g.Obtainable ∧ InMemory g w ∧ Cyk.Table.HasRoom .standard w.length g.size ∧
      Earley.Guarded.recognize g w ⟨3, 6⟩ = some (Earley.recognize g w ⟨3, 6⟩) ∧
      ∃ c, (Cyk.recognize g w ⟨3, 6⟩).chart = some c ∧
        Cyk.Guarded.contains c.table ⟨UInt64.size - 2, UInt64.size - 1⟩ ⟨UInt64.size - 1⟩ = some false ∧
        Cyk.Guarded.trace c ⟨0, 2⟩ ⟨0⟩ = some (c.trace ⟨0, 2⟩ ⟨0⟩) ∧
        (c.trace ⟨0, 2⟩ ⟨0⟩).length = 5 := by
  intro g w
  have hg : g.Obtainable := @Grammar.Obtainable.build [.rule "S" ['S', 'S'], .rule "S" ['a']] g rfl
  have hw : InMemory g w := ⟨by decide, by decide, by decide⟩
  have hroom : Cyk.Table.HasRoom .standard w.length g.size := by decide
  have hlimit : (⟨3, 6⟩ : Limits).maxStates < UInt64.size := by decide
  have hlength : w.length ≤ (⟨3, 6⟩ : Limits).maxLength := by decide
  obtain ⟨⟨hearley, -⟩, hcyk⟩ := nothing_goes_wrong hg hw hlimit
  obtain ⟨c, hc⟩ : ∃ c : Cyk.Chart, c = ⟨g, w, (Cyk.fill g w).table⟩ := ⟨_, rfl⟩
  have hchart : (Cyk.recognize g w ⟨3, 6⟩).chart = some c :=
    Cyk.chart_eq_some_iff.2 ⟨⟨hlength, hroom⟩, hc⟩
  have hanswers := (hcyk .standard).2 c hchart
  have hforeign : c.contains ⟨UInt64.size - 2, UInt64.size - 1⟩ ⟨UInt64.size - 1⟩ = false := by
    rw [hc]
    decide +kernel
  have hmem : c.contains ⟨0, 2⟩ ⟨0⟩ = true := by
    rw [hc]
    decide +kernel
  have hjustified : c.table.Justified c.grammar c.input := by
    subst hc
    dsimp only
    exact Cyk.justified_fill g w
  obtain ⟨-, hspells⟩ := Cyk.unfolds_and_spells_trace hjustified hmem
  refine ⟨hg, hw, hroom, hearley, c, hchart, ?_, hanswers.trace_eq _ _, hspells.length_eq⟩
  rw [hanswers.contains_eq, hforeign]

end ContextFree
