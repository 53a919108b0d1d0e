import ContextFree.Proofs.Cyk.Exact
import ContextFree.Proofs.Earley.Progress
import ContextFree.Proofs.Language.Leftmost

/-!
# All ways of recognition agree

A word can be looked for from left to right, bottom-up in the binary form, among the words that are
enumerated, or by a search on a budget.  Unless a limit is hit or there is no memory for a table,
the answers are the same (`recognizers_agree`), for all of them are about membership.

A table takes memory that left-to-right recognition does not need, and on long inputs no machine has
it.  So there are words that the one way accepts and the other does not even look at
(`recognizers_disagree_on_too_large_chart`).
-/

namespace ContextFree

variable {g : Grammar} {w : List Char} {limits : Limits} {memory : Memory}

/-! ## Verdicts and membership -/

/-- Left-to-right recognition that was not exhausted says whether the word is a member. -/
theorem Earley.exists_verdict (hg : g.NonErasing)
    (h : (Earley.recognize g w limits).verdict.exhausted? = none) :
    ∃ b, (Earley.recognize g w limits).verdict = .ofBool b ∧ (b = true ↔ g.Member w) := by
  obtain ⟨run, hrun, hverdict⟩ := exists_run_of_exhausted?_eq_none h
  exact ⟨_, hverdict, (accepts_iff_member hg hrun).trans hg.ne_nil_and_member_iff⟩

/-- Bottom-up recognition within the limits, with memory for its table, says whether the word is a
member of the binary part. -/
theorem Cyk.exists_verdict (hg : g.WellFormed) (h : w.length ≤ limits.maxLength)
    (hroom : Table.HasRoom memory w.length g.size) :
    ∃ b, (Cyk.recognize g w limits memory).verdict = .ofBool b ∧
      (b = true ↔ g.binaryPart.Member w) :=
  ⟨_, verdict_of_hasRoom h hroom,
    (accepts_iff_member_binaryPart hg).trans g.nonErasing_binaryPart.ne_nil_and_member_iff⟩

/-- Left-to-right recognition accepts members only, within the limits or not. -/
theorem Earley.member_of_accepted (hg : g.NonErasing)
    (h : (Earley.recognize g w limits).Accepted) : g.Member w := by
  rw [Recognition.Accepted] at h
  have hroom : (Earley.recognize g w limits).verdict.exhausted? = none := by
    rw [h]
    rfl
  obtain ⟨b, hverdict, hb⟩ := Earley.exists_verdict hg hroom
  rw [hverdict, Verdict.ofBool_eq_accepted] at h
  exact hb.1 h

/-- Bottom-up recognition accepts members only, within the limits or not, and with memory for its
table or not. -/
theorem Cyk.member_of_accepted (hg : g.WellFormed)
    (h : (Cyk.recognize g w limits memory).Accepted) : g.Member w := by
  rw [Recognition.Accepted] at h
  by_cases hlen : w.length ≤ limits.maxLength
  · by_cases hroom : Table.HasRoom memory w.length g.size
    · obtain ⟨b, hverdict, hb⟩ := Cyk.exists_verdict hg hlen hroom
      rw [hverdict, Verdict.ofBool_eq_accepted, hb] at h
      exact Grammar.Generates.of_binaryPart h
    · rw [Cyk.recognize_of_not_hasRoom hlen hroom] at h
      cases h
  · rw [Cyk.recognize_of_lt (Nat.lt_of_not_le hlen)] at h
    cases h

/-- Left-to-right recognition within the limits, with room for all items, accepts every member. -/
theorem Earley.accepted_of_member (hg : g.NonErasing) (hlen : w.length ≤ limits.maxLength)
    (hroom : ∀ i limit, (Earley.recognize g w limits).verdict ≠ .exhausted (.tooManyItems i limit))
    (h : g.Member w) : (Earley.recognize g w limits).Accepted := by
  obtain ⟨run, hrun, hverdict⟩ := Earley.exists_run hlen hroom
  rw [Recognition.Accepted, hverdict, Verdict.ofBool_eq_accepted,
    Earley.accepts_iff_member hg hrun, hg.ne_nil_and_member_iff]
  exact h

/-- Bottom-up recognition in a grammar in binary form gives the verdict of left-to-right recognition
in any grammar with the same members, if there is memory for its table. -/
theorem verdict_eq_of_isBinary {g' : Grammar} (hg : g.NonErasing) (hg' : g'.WellFormed)
    (hbinary : g'.isBinary = true) (hmember : g'.Member w ↔ g.Member w)
    (h : (Earley.recognize g w limits).verdict.exhausted? = none)
    (hroom : Cyk.Table.HasRoom memory w.length g'.size) :
    (Cyk.recognize g' w limits memory).verdict = (Earley.recognize g w limits).verdict := by
  obtain ⟨b, hverdict, hb⟩ := Earley.exists_verdict hg h
  obtain ⟨b', hverdict', hb'⟩ :=
    Cyk.exists_verdict hg' (Earley.length_le_of_exhausted?_eq_none h) hroom
  rw [Grammar.binaryPart_eq_self hbinary, hmember] at hb'
  rw [hverdict, hverdict', Bool.eq_iff_iff.2 (hb'.trans hb.symm)]

/-! ## Agreement -/

/-- All ways of recognition agree, if left-to-right recognition was not exhausted: bottom-up
recognition in the binary form if there is memory for its table, the enumeration up to the length of
the word, and the search on a budget whenever that has an answer.  Bottom-up recognition in the
grammar itself accepts nothing else, and the same if the grammar is in binary form and there is
memory for the table. -/
theorem recognizers_agree (hg : g.WellFormed)
    (h : (Earley.recognize g w limits).verdict.exhausted? = none) :
    (Cyk.Table.HasRoom memory w.length g.binarize.size →
        (Cyk.recognize g.binarize w limits memory).verdict =
          (Earley.recognize g w limits).verdict) ∧
      ((Earley.recognize g w limits).verdict = .accepted ↔
        String.ofList w ∈ g.sentences w.length) ∧
      (∀ budget x, g.generates? w budget = some x →
        (x = true ↔ (Earley.recognize g w limits).verdict = .accepted)) ∧
      ((Cyk.recognize g w limits memory).verdict = .accepted →
        (Earley.recognize g w limits).verdict = .accepted) ∧
      (g.isBinary = true → Cyk.Table.HasRoom memory w.length g.size →
        (Cyk.recognize g w limits memory).verdict = (Earley.recognize g w limits).verdict) := by
  have haccepted : (Earley.recognize g w limits).verdict = .accepted ↔ g.Member w := by
    obtain ⟨b, hverdict, hb⟩ := Earley.exists_verdict hg.nonErasing h
    rw [hverdict, Verdict.ofBool_eq_accepted, hb]
  refine ⟨fun hroom ↦ ?_, ?_, ?_, fun hcyk ↦ ?_, fun hbinary hroom ↦ ?_⟩
  · exact verdict_eq_of_isBinary hg.nonErasing (Grammar.wellFormed_binarize hg)
      (Grammar.isBinary_binarize hg) (Grammar.member_binarize_iff hg) h hroom
  · rw [haccepted, Grammar.mem_sentences hg.nonErasing, and_iff_right (Nat.le_refl _)]
  · intro budget x hx
    rw [haccepted, Grammar.generates?_eq_some hg.nonErasing hx]
  · exact haccepted.2 (Cyk.member_of_accepted hg hcyk)
  · exact verdict_eq_of_isBinary hg.nonErasing hg hbinary Iff.rfl h hroom

/-- In `S → T | a S b`, `T → S | U | a b` the unit productions form a cycle and `U` has no
productions. -/
theorem recognizers_agree_unit_cycle :
    let g : Grammar := ⟨["S", "T", "U"], [⟨⟨0⟩, [.nonterm ⟨1⟩]⟩,
      ⟨⟨0⟩, [.term 'a', .nonterm ⟨0⟩, .term 'b']⟩, ⟨⟨1⟩, [.nonterm ⟨0⟩]⟩, ⟨⟨1⟩, [.nonterm ⟨2⟩]⟩,
      ⟨⟨1⟩, [.term 'a', .term 'b']⟩], ⟨0⟩⟩
    (Cyk.recognize g ['a', 'a', 'b', 'b'] {}).verdict = .rejected ∧
      (Cyk.recognize g.binarize ['a', 'a', 'b', 'b'] {}).verdict = .accepted ∧
      "aabb" ∈ g.sentences 4 := by
  intro g
  have hverdict : (Earley.recognize g ['a', 'a', 'b', 'b'] {}).verdict = .accepted := by
    decide +kernel
  have hroom : Cyk.Table.HasRoom .standard 4 g.binarize.size := by
    have hinherited : g.inheritedProductions = [⟨⟨0⟩, [.term 'a', .nonterm ⟨0⟩, .term 'b']⟩,
        ⟨⟨0⟩, [.term 'a', .term 'b']⟩, ⟨⟨1⟩, [.term 'a', .term 'b']⟩,
        ⟨⟨1⟩, [.term 'a', .nonterm ⟨0⟩, .term 'b']⟩] := by cbv
    rw [Grammar.binarize, Grammar.size, Grammar.binarization_eq, hinherited]
    decide +kernel
  obtain ⟨hbinarize, hsentences, -⟩ :=
    @recognizers_agree g ['a', 'a', 'b', 'b'] {} .standard (by decide) (by rw [hverdict]; rfl)
  exact ⟨by decide +kernel, (hbinarize hroom).trans hverdict, hsentences.1 hverdict⟩

/-- Productions `A → A B`, `A → c` and `B → c` give the words of any number of `c`. -/
theorem Grammar.yields_replicate {a b : NonTerm} {c : Char}
    (hmore : ⟨a, [.nonterm a, .nonterm b]⟩ ∈ g.productions) (hfirst : ⟨a, [.term c]⟩ ∈ g.productions)
    (hlast : ⟨b, [.term c]⟩ ∈ g.productions) (n : Nat) :
    g.Yields [.nonterm a] (List.replicate (n + 1) c) := by
  induction n with
  | zero => exact yields_nonterm_iff.2 ⟨_, hfirst, rfl, yields_map_term [c]⟩
  | succ n ih =>
    have hone : g.Yields [.nonterm b] [c] :=
      yields_nonterm_iff.2 ⟨_, hlast, rfl, yields_map_term [c]⟩
    rw [List.replicate_succ']
    exact yields_nonterm_iff.2 ⟨_, hmore, rfl, ih.append hone⟩

/-- The members of `S → S A | a`, `A → a` are the words of any number of `a`.  That of 2 ^ 32
characters is accepted from left to right, with limits that leave it all the room that it can need;
but the cells of its table cannot be counted, whatever the machine is. -/
theorem recognizers_disagree_on_too_large_chart :
    let g : Grammar := ⟨["S", "A"], [⟨⟨0⟩, [.nonterm ⟨0⟩, .nonterm ⟨1⟩]⟩, ⟨⟨0⟩, [.term 'a']⟩,
      ⟨⟨1⟩, [.term 'a']⟩], ⟨0⟩⟩
    let w := List.replicate (2 ^ 32) 'a'
    let limits : Limits := ⟨2 ^ 32, 2 ^ 35⟩
    g.WellFormed ∧ g.isBinary = true ∧ (Earley.recognize g w limits).verdict = .accepted ∧
      ∀ memory,
        (Cyk.recognize g.binarize w limits memory).verdict = .fault (.chartTooLarge (2 ^ 32)) ∧
        (Cyk.recognize g w limits memory).verdict = .fault (.chartTooLarge (2 ^ 32)) := by
  intro g w limits
  have hg : g.WellFormed := by decide
  have hlength : w.length = 2 ^ 32 := List.length_replicate
  have hlen : w.length ≤ limits.maxLength := Nat.le_of_eq hlength
  have hmember : g.Member w := Grammar.generates_iff_yields.2
    (Grammar.yields_replicate (b := ⟨1⟩) (by decide) (by decide) (by decide) (2 ^ 32 - 1))
  have hcapacity : Earley.capacity g w.length ≤ limits.maxStates := by
    rw [hlength]
    decide
  have hverdict : (Earley.recognize g w limits).verdict = .accepted :=
    Earley.accepted_of_member hg.nonErasing hlen
      (Earley.verdict_ne_tooManyItems hg.nonErasing hcapacity) hmember
  have hfault : ∀ (g' : Grammar) memory, (Cyk.recognize g' w limits memory).verdict =
      .fault (.chartTooLarge (2 ^ 32)) := by
    intro g' memory
    have hcells : ¬w.length * w.length < UInt64.size := by
      rw [hlength]
      decide
    rw [Cyk.recognize_of_not_addressable hlen fun h ↦ hcells h.cells_lt, hlength]
    rfl
  exact ⟨hg, by decide, hverdict, fun memory ↦ ⟨hfault _ memory, hfault _ memory⟩⟩

end ContextFree
