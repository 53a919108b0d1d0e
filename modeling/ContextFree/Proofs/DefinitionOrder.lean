import ContextFree.Proofs.Agreement
import ContextFree.Proofs.Earley.Renumbering
import ContextFree.Proofs.Grammar.Spelling
import ContextFree.Proofs.NormalForm.Renumbering

/-!
# The order of definitions

Steps in another order give the same grammar with other numbers.  Numbers decide in which order the
recognizers go, and which reasons and names they come across first, but not what they answer
(`sameAnswers_of_perm`).
-/

namespace ContextFree

/-- Two grammars are not told apart by the verdicts of the recognizers, nor by how much the sets of
a whole chart hold. -/
structure SameAnswers (g g' : Grammar) : Prop where
  /-- Charts of the two have cells of the same width. -/
  size_eq : g'.size = g.size
  cyk : ∀ w limits memory,
    (Cyk.recognize g w limits memory).verdict = (Cyk.recognize g' w limits memory).verdict
  earley : ∀ w limits,
    (Earley.recognize g w limits).verdict.Alike (Earley.recognize g' w limits).verdict
  sizes : ∀ w limits, (Earley.recognize g w limits).verdict.exhausted? = none →
    ∃ c c', (Earley.recognize g w limits).chart = some c ∧
      (Earley.recognize g' w limits).chart = some c' ∧ c.sets.map (·.size) = c'.sets.map (·.size)

variable {g g' : Grammar} {σ : NonTerm → NonTerm}

/-- Bottom-up recognition in another order.  The tables are of one size, so there is memory for both
or for none. -/
theorem Cyk.verdict_eq_of_renames (h : Grammar.Renames σ g g') (hg : g.WellFormed)
    (hg' : g'.WellFormed) (w : List Char) (limits : Limits) (memory : Memory) :
    (recognize g w limits memory).verdict = (recognize g' w limits memory).verdict := by
  by_cases hlen : w.length ≤ limits.maxLength
  · by_cases hroom : Table.HasRoom memory w.length g.size
    · obtain ⟨b, hverdict, hb⟩ := exists_verdict hg hlen hroom
      obtain ⟨b', hverdict', hb'⟩ := exists_verdict hg' hlen (by rwa [h.size_eq])
      rw [h.binaryPart.member_iff hg.binaryPart] at hb'
      rw [hverdict, hverdict', Bool.eq_iff_iff.2 (hb.trans hb'.symm)]
    · have hroom' : ¬Table.HasRoom memory w.length g'.size := by rwa [h.size_eq]
      rw [recognize_of_not_hasRoom hlen hroom, recognize_of_not_hasRoom hlen hroom', h.size_eq]
  · have hlt := Nat.lt_of_not_le hlen
    rw [recognize_of_lt hlt, recognize_of_lt hlt]

theorem Grammar.Renames.sameAnswers (h : Renames σ g g') (hg : g.WellFormed)
    (hg' : g'.WellFormed) : SameAnswers g g' where
  size_eq := h.size_eq
  cyk := Cyk.verdict_eq_of_renames h hg hg'
  earley w limits := (Earley.recognize_of_renames h hg hg' w limits).1
  sizes w limits := (Earley.recognize_of_renames h hg hg' w limits).2

/-- The order of the steps never decides what is accepted.  If there is at most one start step, the
steps build a grammar in every order or in none; and neither the grammars nor their binary forms are
told apart by their answers. -/
theorem sameAnswers_of_perm {steps steps' : List BuilderStep} (h : steps.Perm steps')
    (hstart : (steps.filterMap (·.startName?)).length ≤ 1) :
    ((∃ g, (Builder.ofSteps steps).build = .ok g) ↔
        ∃ g', (Builder.ofSteps steps').build = .ok g') ∧
      ∀ g g', (Builder.ofSteps steps).build = .ok g → (Builder.ofSteps steps').build = .ok g' →
        SameAnswers g g' ∧ SameAnswers g.binarize g'.binarize := by
  have hpermutes := Builder.permutes_ofSteps h hstart
  constructor
  · rw [Builder.exists_build_iff, Builder.exists_build_iff]
    exact ⟨hpermutes.buildable, hpermutes.symm.buildable⟩
  · intro g g' hbuild hbuild'
    have hg := Builder.build_wellFormed hbuild
    have hg' := Builder.build_wellFormed hbuild'
    obtain ⟨σ, hσ⟩ := hpermutes.exists_renames hbuild hbuild'
    obtain ⟨τ, hτ⟩ := hσ.exists_binarize hg hg'
    exact ⟨hσ.sameAnswers hg hg', hτ.sameAnswers (Grammar.wellFormed_binarize hg)
      (Grammar.wellFormed_binarize hg')⟩

/-- In `T → a T b | S`, `S → c` with the start symbol `T`, either non-terminal may come first. -/
theorem sameAnswers_of_perm_renumbered :
    let steps : List BuilderStep := [.start "T", .rule "T" ['a', 'T', 'b'],
      .production "S" [.term 'c'], .rule "T" ['S']]
    let steps' : List BuilderStep := [.production "S" [.term 'c'], .rule "T" ['S'], .start "T",
      .rule "T" ['a', 'T', 'b']]
    let g : Grammar := ⟨["T", "S"], [⟨⟨0⟩, [.term 'a', .nonterm ⟨0⟩, .term 'b']⟩,
      ⟨⟨1⟩, [.term 'c']⟩, ⟨⟨0⟩, [.nonterm ⟨1⟩]⟩], ⟨0⟩⟩
    let g' : Grammar := ⟨["S", "T"], [⟨⟨0⟩, [.term 'c']⟩, ⟨⟨1⟩, [.nonterm ⟨0⟩]⟩,
      ⟨⟨1⟩, [.term 'a', .nonterm ⟨1⟩, .term 'b']⟩], ⟨1⟩⟩
    steps.Perm steps' ∧ (steps.filterMap (·.startName?)).length ≤ 1 ∧
      (Builder.ofSteps steps).build = .ok g ∧ (Builder.ofSteps steps').build = .ok g' ∧
      SameAnswers g g' ∧ SameAnswers g.binarize g'.binarize ∧
      (Cyk.recognize g'.binarize ['a', 'c', 'b'] {}).verdict = .accepted := by
  intro steps steps' g g'
  have hperm : steps.Perm steps' := by decide
  have hstart : (steps.filterMap (·.startName?)).length ≤ 1 := by decide
  have hg : (Builder.ofSteps steps).build = .ok g := by decide
  have hg' : (Builder.ofSteps steps').build = .ok g' := by decide
  obtain ⟨hsame, hbinary⟩ := (sameAnswers_of_perm hperm hstart).2 g g' hg hg'
  have hwell : g.WellFormed := Builder.build_wellFormed hg
  have haccepted : (Earley.recognize g ['a', 'c', 'b'] {}).verdict = .accepted := by decide +kernel
  have hroom : Cyk.Table.HasRoom .standard 3 g.binarize.size := by
    have hinherited : g.inheritedProductions = [⟨⟨0⟩, [.term 'a', .nonterm ⟨0⟩, .term 'b']⟩,
        ⟨⟨0⟩, [.term 'c']⟩, ⟨⟨1⟩, [.term 'c']⟩] := by cbv
    rw [Grammar.binarize, Grammar.size, Grammar.binarization_eq, hinherited]
    decide +kernel
  have hverdict : (Cyk.recognize g.binarize ['a', 'c', 'b'] {}).verdict = .accepted :=
    (verdict_eq_of_isBinary hwell.nonErasing (Grammar.wellFormed_binarize hwell)
      (Grammar.isBinary_binarize hwell) (Grammar.member_binarize_iff hwell)
      (by rw [haccepted]; rfl) hroom).trans haccepted
  exact ⟨hperm, hstart, hg, hg', hsame, hbinary, (hbinary.cyk _ _ _).symm.trans hverdict⟩

end ContextFree
