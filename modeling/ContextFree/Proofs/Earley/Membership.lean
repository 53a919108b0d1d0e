import ContextFree.Proofs.Earley.Saturation
import ContextFree.Proofs.Grammar.Obtainable

/-!
# The verdict of left-to-right recognition

If the limits do not interfere, the verdict says whether the start symbol derives the input.  The
empty input is rejected, and rightly so: without empty productions nothing derives it.
-/

namespace ContextFree.Earley

variable {g : Grammar} {w : List Char}

/-- The chart of a run, stopped or not, accepts if its last set holds a final item. -/
theorem Run.Invariant.accepts_iff {limit : Nat} {run : Run} (inv : Run.Invariant g w limit run) :
    (Chart.mk g w run.sets).accepts = true ↔
      w ≠ [] ∧ ∃ item, run.Holds w.length item ∧ Chart.IsFinal g item := by
  have hset : (Chart.mk g w run.sets).set? w.length = some (run.set w.length) :=
    Run.set?_eq_set (inv.lt_size_sets (Nat.le_refl _))
  simp only [Chart.accepts, Chart.length, hset, Option.any_some, Bool.and_eq_true,
    Bool.not_eq_true', List.isEmpty_eq_false_iff, Array.any_eq_true',
    decide_eq_true_eq, Run.Holds]

/-- Even the chart of a run that was stopped accepts nothing but members. -/
theorem Run.Invariant.member_of_accepts {limit : Nat} {run : Run}
    (inv : Run.Invariant g w limit run) (h : (Chart.mk g w run.sets).accepts = true) :
    g.Member w := by
  obtain ⟨-, item, hitem, horigin, hcomplete, hlhs⟩ := inv.accepts_iff.1 h
  have hyields := (inv.reads hitem).yields_lhs (Item.next?_eq_none_iff.2 hcomplete)
  rw [hlhs, horigin, slice_zero_length] at hyields
  exact Grammar.generates_iff_yields.2 hyields

/-- The chart of a run that was not stopped accepts just what the start symbol derives. -/
theorem accepts_iff_member (hg : g.NonErasing) {limit : Nat} {run : Run}
    (h : Run.overInput g limit w = .ok run) :
    (Chart.mk g w run.sets).accepts = true ↔ w ≠ [] ∧ g.Member w := by
  have inv := (Run.visited_of_overInput hg h).invariant
  constructor
  · intro haccepts
    exact ⟨(inv.accepts_iff.1 haccepts).1, inv.member_of_accepts haccepts⟩
  · rintro ⟨hw, hmem⟩
    obtain ⟨p, hp, hd⟩ := member_iff_deduces.1 hmem
    exact inv.accepts_iff.2 ⟨hw, _, (Run.holds_iff_deduces hg h).2 hd, rfl, Nat.le_refl _,
      (Grammar.production_of_mem_alternatives hp).2.2⟩

/-- An input that is too long is not looked at. -/
theorem recognize_of_lt {maxLength limit : Nat} (h : maxLength < w.length) :
    recognize g w ⟨maxLength, limit⟩ =
      .finish (.exhausted (.inputTooLong w.length maxLength)) none [] := by
  have hlimit : Limits.exceededBy ⟨maxLength, limit⟩ w.length =
      some (.inputTooLong w.length maxLength) := if_pos h
  simp only [recognize, hlimit]

section Recognize

variable {maxLength limit : Nat} (hlen : w.length ≤ maxLength)

include hlen

/-- The recognition of an input whose run went to the end. -/
theorem recognize_of_ok {run : Run} (h : Run.overInput g limit w = .ok run) :
    recognize g w ⟨maxLength, limit⟩ = .finish (.ofBool (Chart.mk g w run.sets).accepts)
      (some ⟨g, w, run.sets⟩) run.events.reverse := by
  have hlimit : Limits.exceededBy ⟨maxLength, limit⟩ w.length = none := if_neg (Nat.not_lt.2 hlen)
  simp only [recognize, hlimit, h]

/-- The recognition of an input whose run was stopped. -/
theorem recognize_of_error {h : Halt} (herror : Run.overInput g limit w = .error h) :
    recognize g w ⟨maxLength, limit⟩ =
      .finish (.exhausted h.cause) (some ⟨g, w, h.run.sets⟩) h.run.events.reverse := by
  have hlimit : Limits.exceededBy ⟨maxLength, limit⟩ w.length = none := if_neg (Nat.not_lt.2 hlen)
  simp only [recognize, hlimit, herror]

/-- Stopped or not, the run leaves its chart. -/
theorem chart_eq_outcome :
    (recognize g w ⟨maxLength, limit⟩).chart =
      some ⟨g, w, (Run.outcome (Run.overInput g limit w)).sets⟩ := by
  cases hrun : Run.overInput g limit w with
  | error h =>
    rw [recognize_of_error hlen hrun]
    rfl
  | ok run =>
    rw [recognize_of_ok hlen hrun]
    rfl

/-- Stopped or not, the run leaves its events, and the verdict comes behind them. -/
theorem events_eq_outcome :
    (recognize g w ⟨maxLength, limit⟩).events =
      (Run.outcome (Run.overInput g limit w)).events.reverse ++
        [.finished (recognize g w ⟨maxLength, limit⟩).verdict] := by
  cases hrun : Run.overInput g limit w with
  | error h =>
    rw [recognize_of_error hlen hrun]
    rfl
  | ok run =>
    rw [recognize_of_ok hlen hrun]
    rfl

end Recognize

/-- If no set was too small for its items, the run went to the end and its chart decides. -/
theorem exists_run {limits : Limits} (hlen : w.length ≤ limits.maxLength)
    (hroom : ∀ i limit, (recognize g w limits).verdict ≠ .exhausted (.tooManyItems i limit)) :
    ∃ run, Run.overInput g limits.maxStates w = .ok run ∧
      (recognize g w limits).verdict = .ofBool (Chart.mk g w run.sets).accepts := by
  cases hrun : Run.overInput g limits.maxStates w with
  | error h =>
    obtain ⟨i, hcause, -⟩ := Run.stopsFull_overInput g w limits.maxStates h hrun
    rw [recognize_of_error hlen hrun, hcause] at hroom
    exact (hroom i _ rfl).elim
  | ok run =>
    rw [recognize_of_ok hlen hrun]
    exact ⟨run, rfl, rfl⟩

/-- What was not exhausted was within the limits. -/
theorem length_le_of_exhausted?_eq_none {limits : Limits}
    (h : (recognize g w limits).verdict.exhausted? = none) : w.length ≤ limits.maxLength := by
  by_contra hlt
  rw [recognize_of_lt (Nat.lt_of_not_le hlt)] at h
  cases h

/-- If no limit was hit, the run went to the end and its chart decides. -/
theorem exists_run_of_exhausted?_eq_none {limits : Limits}
    (h : (recognize g w limits).verdict.exhausted? = none) :
    ∃ run, Run.overInput g limits.maxStates w = .ok run ∧
      (recognize g w limits).verdict = .ofBool (Chart.mk g w run.sets).accepts := by
  refine exists_run (length_le_of_exhausted?_eq_none h) fun i limit heq ↦ ?_
  rw [heq] at h
  cases h

/-- The chart of a run that went to the end. -/
theorem chart_eq_of_run {limits : Limits} (hlen : w.length ≤ limits.maxLength) {run : Run}
    (h : Run.overInput g limits.maxStates w = .ok run) :
    (recognize g w limits).chart = some ⟨g, w, run.sets⟩ := by
  rw [recognize_of_ok hlen h]
  rfl

/-- The events of a run that went to the end, with the verdict behind them. -/
theorem events_eq_of_run {limits : Limits} (hlen : w.length ≤ limits.maxLength) {run : Run}
    (h : Run.overInput g limits.maxStates w = .ok run) :
    (recognize g w limits).events =
      run.events.reverse ++ [.finished (recognize g w limits).verdict] := by
  rw [recognize_of_ok hlen h]
  rfl

/-- Left-to-right recognition is exact: whichever grammar there is, if the limits leave room, the
input is accepted if it is not empty and the start symbol derives it, and rejected otherwise. -/
theorem verdict_exact {limits : Limits} (hg : g.Obtainable) (hlen : w.length ≤ limits.maxLength)
    (hroom : ∀ i limit, (recognize g w limits).verdict ≠ .exhausted (.tooManyItems i limit)) :
    ((recognize g w limits).verdict = .accepted ↔ w ≠ [] ∧ g.Member w) ∧
      ((recognize g w limits).verdict = .rejected ↔ ¬(w ≠ [] ∧ g.Member w)) := by
  obtain ⟨run, hrun, hverdict⟩ := exists_run hlen hroom
  have haccepts := accepts_iff_member hg.wellFormed.nonErasing hrun
  constructor
  · rw [hverdict, Verdict.ofBool_eq_accepted, haccepts]
  · rw [hverdict, Verdict.ofBool_eq_rejected, haccepts]

/-- The grammar `S → S S | a` is left- and right-recursive and ambiguous. -/
theorem verdict_exact_ambiguous :
    let g : Grammar :=
      ⟨["S"], [⟨⟨0⟩, [.nonterm ⟨0⟩, .nonterm ⟨0⟩]⟩, ⟨⟨0⟩, [.term 'a']⟩], ⟨0⟩⟩
    g.Obtainable ∧ (recognize g ['a', 'a', 'a'] {}).verdict = .accepted ∧
      g.Member ['a', 'a', 'a'] := by
  intro g
  have hg : g.Obtainable :=
    @Grammar.Obtainable.build [.rule "S" ['S', 'S'], .rule "S" ['a']] g rfl
  have hverdict : (recognize g ['a', 'a', 'a'] {}).verdict = .accepted := by decide +kernel
  obtain ⟨haccepted, -⟩ := @verdict_exact g ['a', 'a', 'a'] {} hg (by decide)
    (by simp [hverdict])
  exact ⟨hg, hverdict, (haccepted.1 hverdict).2⟩

end ContextFree.Earley
