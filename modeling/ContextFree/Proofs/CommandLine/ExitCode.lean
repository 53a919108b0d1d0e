import ContextFree.CommandLine.Report
import ContextFree.Proofs.Agreement

/-!
# The exit code tells about membership

The command line accepts an input if either way of recognition does.  Bottom-up recognition misses
members of grammars that are not in binary form, left-to-right recognition may run out of room,
and there may be no memory for a table.  But neither ever accepts a word that is not a member.  So
exit code 0 can be trusted whatever the limits and the memory are, and exit code 1 if left-to-right
recognition came to its end.
-/

namespace ContextFree

namespace CommandLine

/-! ## Ways in which a run ends -/

/-- The options cannot be read, or they can but the grammar cannot. -/
def Unusable (args : List String) : Prop :=
  (∃ e, Options.ofArguments args = .error e) ∨
    ∃ o e, Options.ofArguments args = .ok o ∧ Notation.read o.grammar = .error e

/-- The options and the grammar that a command line asks for. -/
def AsksFor (args : List String) (o : Options) (g : Grammar) : Prop :=
  Options.ofArguments args = .ok o ∧ Notation.read o.grammar = .ok g

variable {args : List String} {o : Options} {g : Grammar} {program : String} {memory : Memory}

theorem unusable_or_asksFor (args : List String) :
    Unusable args ∨ ∃ o g, AsksFor args o g := by
  cases ho : Options.ofArguments args with
  | error e => exact .inl (.inl ⟨e, ho⟩)
  | ok o =>
    cases hg : Notation.read o.grammar with
    | error e => exact .inl (.inr ⟨o, e, ho, hg⟩)
    | ok g => exact .inr ⟨o, g, ho, hg⟩

theorem AsksFor.not_unusable (h : AsksFor args o g) : ¬Unusable args := by
  obtain ⟨ho, hg⟩ := h
  rintro (⟨e, he⟩ | ⟨o', e, ho', he⟩)
  · rw [ho] at he
    cases he
  · rw [ho, Except.ok.injEq] at ho'
    rw [← ho', hg] at he
    cases he

theorem AsksFor.run_eq (h : AsksFor args o g) :
    run args program memory = recognizeBoth o g memory := by
  obtain ⟨ho, hg⟩ := h
  simp only [run, ho, hg]

/-- A line that is ended is not empty. -/
theorem append_newline_ne_empty (s : String) : s ++ "\n" ≠ "" := fun h ↦
  absurd (String.append_eq_empty_iff.1 h).2 (by decide)

/-- A command line that cannot be used leaves code 2 and an explanation. -/
theorem Unusable.run_eq (h : Unusable args) :
    ∃ s, run args program memory = { code := 2, stderr := s ++ "\n" } := by
  rcases h with ⟨e, he⟩ | ⟨o, e, ho, he⟩
  · exact ⟨e.message ++ "\n" ++ usage program, by simp only [run, he]⟩
  · exact ⟨"bad grammar: " ++ e.message, by simp only [run, ho, he]⟩

/-! ## Ways of recognition taken together -/

theorem code_recognizeBoth_eq_zero_iff :
    (recognizeBoth o g memory).code = 0 ↔
      (Cyk.recognize g o.word o.limits memory).Accepted ∨
        (Earley.recognize g o.word o.limits).Accepted := by
  simp only [recognizeBoth, ite_eq_left_iff, Nat.one_ne_zero, imp_false, Decidable.not_not]

theorem code_recognizeBoth (o : Options) (g : Grammar) (memory : Memory) :
    (recognizeBoth o g memory).code = 0 ∨ (recognizeBoth o g memory).code = 1 := by
  rw [recognizeBoth]
  split
  · exact .inl rfl
  · exact .inr rfl

theorem member_of_code_eq_zero (hg : g.WellFormed) (h : (recognizeBoth o g memory).code = 0) :
    g.Member o.word :=
  (code_recognizeBoth_eq_zero_iff.1 h).elim (Cyk.member_of_accepted hg)
    (Earley.member_of_accepted hg.nonErasing)

/-! ## All command lines -/

theorem code_run_eq_two_iff (args : List String) (program : String) (memory : Memory) :
    (run args program memory).code = 2 ↔ Unusable args := by
  rcases unusable_or_asksFor args with h | ⟨o, g, h⟩
  · obtain ⟨s, hrun⟩ := h.run_eq
    rw [hrun]
    exact iff_of_true rfl h
  · have hcode := code_recognizeBoth o g memory
    rw [h.run_eq]
    exact iff_of_false (fun h2 ↦ by omega) h.not_unusable

/-- What the exit code of a command line says.  It is 2 just if the options or the grammar cannot be
read, and then there is an explanation and no report.  Otherwise it is 0 or 1, and nothing is
complained of.  Code 0 says that the start symbol of the grammar derives the input, no matter which
limits were hit and whether there was memory for a table; and if the input was not too long and
left-to-right recognition had room for its items, the other code says that it does not, whatever the
shape of the productions. -/
theorem exit_code_exact (args : List String) (program : String) (memory : Memory) :
    ((run args program memory).code = 2 ↔ Unusable args) ∧
      (Unusable args → (run args program memory).stdout = "" ∧
        (run args program memory).stderr ≠ "") ∧
      (¬Unusable args →
        ((run args program memory).code = 0 ∨ (run args program memory).code = 1) ∧
        (run args program memory).stderr = "" ∧ ∃ o g, AsksFor args o g) ∧
      ∀ o g, AsksFor args o g →
        ((run args program memory).code = 0 → g.Member o.word) ∧
        (o.word.length ≤ o.limits.maxLength →
          (∀ i limit, (Earley.recognize g o.word o.limits).verdict ≠
            .exhausted (.tooManyItems i limit)) →
          ((run args program memory).code = 0 ↔ g.Member o.word)) := by
  refine ⟨code_run_eq_two_iff args program memory, fun h ↦ ?_, fun h ↦ ?_, fun o g h ↦ ?_⟩
  · obtain ⟨s, hrun⟩ := h.run_eq
    rw [hrun]
    exact ⟨rfl, append_newline_ne_empty s⟩
  · obtain ⟨o, g, hasks⟩ := (unusable_or_asksFor args).resolve_left h
    rw [hasks.run_eq]
    exact ⟨code_recognizeBoth o g memory, rfl, o, g, hasks⟩
  · have hg : g.WellFormed := (Grammar.Obtainable.read h.2).wellFormed
    rw [h.run_eq]
    refine ⟨member_of_code_eq_zero hg, fun hlen hroom ↦ ⟨member_of_code_eq_zero hg, fun hw ↦ ?_⟩⟩
    exact code_recognizeBoth_eq_zero_iff.2
      (.inr (Earley.accepted_of_member hg.nonErasing hlen hroom hw))

/-- The grammar `S → a S b | a b` is not in binary form, so only left-to-right recognition finds the
member `aabb`.  It needs room for four items in one set, and gets no more. -/
theorem exit_code_exact_not_binary :
    let args := ["--max-states", "4", "--grammar", "S -> a S b | a b", "aabb"]
    let o : Options :=
      { input := some "aabb", grammar := "S -> a S b | a b", limits := ⟨1000, 4⟩ }
    let g : Grammar := ⟨["S"], [⟨⟨0⟩, [.term 'a', .nonterm ⟨0⟩, .term 'b']⟩,
      ⟨⟨0⟩, [.term 'a', .term 'b']⟩], ⟨0⟩⟩
    AsksFor args o g ∧ (Earley.recognize g o.word o.limits).verdict = .accepted ∧
      (run args).code = 0 ∧ g.Member o.word := by
  intro args o g
  have hasks : AsksFor args o g := ⟨by decide +kernel, by decide +kernel⟩
  have hword : o.word = ['a', 'a', 'b', 'b'] := by decide +kernel
  have hverdict : (Earley.recognize g o.word o.limits).verdict = .accepted := by
    rw [hword]
    decide +kernel
  have hcode : (run args).code = 0 := by
    rw [hasks.run_eq]
    exact code_recognizeBoth_eq_zero_iff.2 (.inr hverdict)
  obtain ⟨-, -, -, hmember⟩ := exit_code_exact args "chartparse" .standard
  have hiff := (hmember o g hasks).2 (by rw [hword]; decide) (by simp [hverdict])
  exact ⟨hasks, hverdict, hcode, hiff.1 hcode⟩

end CommandLine

end ContextFree
