import ContextFree.Notation.Printer
import ContextFree.Proofs.Grammar.Building

/-!
# Numbering by the rules

Printing walks over the left-hand sides with a single counter, to find out whether the rules by
themselves number the non-terminals as the grammar does.  They do just if the left-hand sides first
appear in the order of their numbers and all non-terminals are among them (`numberedByRules_iff`).
-/

namespace ContextFree.Notation

variable {g : Grammar}

/-- Left-hand sides first appear in the order of their numbers, and all non-terminals are among
them. -/
def NumberedByRules (g : Grammar) : Prop :=
  (g.productions.map (·.lhs)).eraseDups = g.nonterms

/-- The counter goes from `m` to `n` if the numbers from `m` on first occur in their order, and `n`
is the first one that does not occur. -/
theorem countOn_eq_some_iff {m n : Nat} {is : List Nat} : countOn m is = some n ↔
    m ≤ n ∧ (is.filter (m ≤ ·)).eraseDups = List.range' m (n - m) := by
  fun_induction countOn m is with
  | case1 m =>
    rw [Option.some_inj, List.filter_nil, List.eraseDups_nil, eq_comm (a := []),
      List.range'_eq_nil_iff]
    omega
  | case2 m is ih =>
    have hrest : (is.filter (m ≤ ·)).filter (fun i ↦ !i == m) = is.filter (m + 1 ≤ ·) := by
      rw [List.filter_filter]
      refine List.filter_congr fun i _ ↦ ?_
      rw [Bool.eq_iff_iff]
      simp only [Bool.and_eq_true, Bool.not_eq_true', beq_eq_false_iff_ne, decide_eq_true_eq]
      omega
    rw [ih, List.filter_cons_of_pos (by simp), List.eraseDups_cons, hrest]
    by_cases hmn : m < n
    · obtain ⟨d, rfl⟩ := Nat.exists_eq_add_of_lt hmn
      have hd : m + d + 1 - m = d + 1 := by omega
      have hd' : m + d + 1 - (m + 1) = d := by omega
      rw [hd, hd', List.range'_succ, List.cons.injEq, and_iff_right rfl]
      exact and_congr_left' (iff_of_true (by omega) (by omega))
    · have hzero : n - m = 0 := by omega
      rw [hzero, List.range'_zero]
      exact iff_of_false (fun h ↦ hmn h.1) fun h ↦ List.cons_ne_nil _ _ h.2
  | case3 m i is hne hlt =>
    rw [List.filter_cons_of_pos (by simpa using Nat.le_of_lt hlt), List.eraseDups_cons]
    cases n - m with
    | zero => simp
    | succ d =>
      rw [List.range'_succ, List.cons.injEq]
      simp [hne]
  | case4 m i is hne hle ih =>
    have hlt : ¬m ≤ i := by omega
    rw [ih, List.filter_cons_of_neg (by simpa using hlt)]

/-- The walk finds what it is looking for just if the left-hand sides first appear in the order of
their numbers and all of them appear. -/
theorem numberedByRules_iff : numberedByRules g = true ↔ NumberedByRules g := by
  have hindex : Function.Injective NonTerm.index := fun _ _ ↦ NonTerm.ext
  have hmk : g.nonterms.map NonTerm.index = List.range g.size := by
    simp [Grammar.nonterms, Function.comp_def]
  have hall : (g.productions.map (·.lhs.index)).filter (0 ≤ ·) =
      (g.productions.map (·.lhs)).map NonTerm.index := by simp
  rw [numberedByRules, decide_eq_true_iff, countOn_eq_some_iff, hall,
    eraseDups_map fun _ _ _ _ h ↦ hindex h, Nat.sub_zero, ← List.range_eq_range', ← hmk,
    (List.map_injective_iff.2 hindex).eq_iff, NumberedByRules]
  exact and_iff_right (Nat.zero_le _)

/-- Distinct left-hand sides have distinct names. -/
theorem NumberedByRules.eraseDups_names (h : NumberedByRules g) (hg : g.WellFormed) :
    ((g.productions.map (·.lhs)).map g.name).eraseDups = g.names := by
  have hlt : ∀ a ∈ g.productions.map (·.lhs), a.index < g.size := by simpa using hg.lhs_lt
  rw [eraseDups_map fun a ha b hb ↦ Grammar.name_injective hg (hlt a ha) (hlt b hb), h,
    Grammar.map_name_nonterms]

end ContextFree.Notation
