import ContextFree.Proofs.Language.Leftmost
import Mathlib.Data.List.Sort
import Mathlib.Data.String.Basic

/-!
# Deciding and enumerating the language

The two questions that a search through leftmost derivations answers.  The words up to a length are
listed in ascending order, each once, and nothing else is (`sentences_exact`).  Whether one word is a
member is decided from some budget on; with any smaller one the search says nothing
(`exists_budget`).
-/

namespace ContextFree.Grammar

open SententialForm

variable {g : Grammar} {w : List Char}

/-! ## Enumeration -/

theorem nodup_sentences (g : Grammar) (n : Nat) : (g.sentences n).Nodup := by
  rw [sentences, (List.mergeSort_perm _ _).nodup_iff]
  refine List.Nodup.map (fun _ _ ↦ String.ofList_injective) (List.Nodup.filterMap ?_ ?_)
  · intro form form' w h h'
    exact (eq_map_term_of_word? h).trans (eq_map_term_of_word? h').symm
  · exact nodup_breadthFirst _ _

theorem sentences_ascend (g : Grammar) (n : Nat) : (g.sentences n).Pairwise (· < ·) := by
  have hle : (g.sentences n).Pairwise (· ≤ ·) := List.pairwise_mergeSort' _ _
  exact (hle.and (nodup_sentences g n)).imp fun ⟨h, hne⟩ ↦ lt_of_le_of_ne h hne

/-- The sentences up to a length are the words of at least one and at most that many characters that
the start symbol derives.  They are listed in ascending order, each once. -/
theorem sentences_exact (hg : g.WellFormed) (n : Nat) :
    (g.sentences n).Pairwise (· < ·) ∧
      ∀ s, s ∈ g.sentences n ↔ 1 ≤ s.length ∧ s.length ≤ n ∧ g.Member s.toList := by
  refine ⟨sentences_ascend g n, fun s ↦ ?_⟩
  have hmem := mem_sentences hg.nonErasing (w := s.toList) (n := n)
  rw [String.ofList_toList, String.length_toList] at hmem
  rw [hmem, iff_and_self]
  rintro ⟨-, hmember⟩
  rw [← String.length_toList]
  exact List.length_pos_iff.2 (hg.nonErasing.ne_nil_and_member_iff.2 hmember).1

/-- In `S → T`, `T → S | T T | U | x` the unit productions form a cycle, `T` is left-recursive, and
`U` has no productions. -/
theorem sentences_exact_unit_cycle :
    let g : Grammar := ⟨["S", "T", "U"], [⟨⟨0⟩, [.nonterm ⟨1⟩]⟩, ⟨⟨1⟩, [.nonterm ⟨0⟩]⟩,
      ⟨⟨1⟩, [.nonterm ⟨1⟩, .nonterm ⟨1⟩]⟩, ⟨⟨1⟩, [.nonterm ⟨2⟩]⟩, ⟨⟨1⟩, [.term 'x']⟩], ⟨0⟩⟩
    g.WellFormed ∧ (g.sentences 2).Pairwise (· < ·) ∧ "xx" ∈ g.sentences 2 ∧
      "xxx" ∉ g.sentences 2 := by
  intro g
  have hg : g.WellFormed := by decide
  obtain ⟨hascend, hmem⟩ := sentences_exact hg 2
  refine ⟨hg, hascend, (hmem _).2 ⟨by decide, by decide, ?_⟩, fun h ↦ ?_⟩
  · have hx : g.Yields [.nonterm ⟨1⟩] ['x'] :=
      yields_nonterm_iff.2 ⟨⟨⟨1⟩, [.term 'x']⟩, by decide, rfl, yields_map_term ['x']⟩
    have hxx : g.Yields [.nonterm ⟨1⟩] ['x', 'x'] :=
      yields_nonterm_iff.2 ⟨⟨⟨1⟩, [.nonterm ⟨1⟩, .nonterm ⟨1⟩]⟩, by decide, rfl, hx.append hx⟩
    exact generates_iff.2 ⟨⟨⟨0⟩, [.nonterm ⟨1⟩]⟩, by decide, rfl, hxx⟩
  · exact absurd ((hmem _).1 h).2.1 (by decide)

/-! ## The search on a budget -/

/-- The search is undecided as long as forms are left and the word is not among those looked at. -/
theorem findWord_eq_none_iff {budget : Nat} {forms : List (List Symbol)} :
    findWord w forms budget = none ↔
      budget + 1 < min forms.length (forms.findIdx (word? · = some w) + 1) := by
  induction forms generalizing budget with
  | nil => simp [findWord]
  | cons form rest ih =>
    by_cases hform : word? form = some w
    · simp [findWord, hform, List.findIdx_cons]
    · cases budget with
      | zero => cases rest <;> simp [findWord, hform, List.findIdx_cons]
      | succ budget =>
        rw [findWord, if_neg hform, ih]
        simp [List.findIdx_cons, hform]

/-- Where the search on a budget begins to have an answer: when it comes to the word, or at the last
form. -/
def threshold (g : Grammar) (w : List Char) : Nat :=
  if w = [] then 1
  else min (g.candidateForms w).length ((g.candidateForms w).findIdx (word? · = some w) + 1)

theorem one_le_threshold (g : Grammar) (w : List Char) : 1 ≤ g.threshold w := by
  have hne : g.candidateForms w ≠ [] :=
    (Search.visits_eq_nil_iff _ _).not.2 (List.cons_ne_nil _ _)
  have hpos := List.length_pos_iff.2 hne
  rw [threshold]
  split <;> omega

theorem generates?_eq_none_iff {budget : Nat} :
    g.generates? w budget = none ↔ max budget 1 < g.threshold w := by
  by_cases hw : w = []
  · simp [generates?, threshold, hw]
  · have hbudget : budget - 1 + 1 = max budget 1 := by omega
    rw [generates?_of_ne_nil hw, findWord_eq_none_iff, threshold, if_neg hw, hbudget]

/-- The search on a budget, of which one expansion is always made, decides membership: there is a
budget below which it has no answer, and from which on it has the right one. -/
theorem exists_budget (hg : g.WellFormed) (w : List Char) :
    ∃ b₀ x, 1 ≤ b₀ ∧ (x = true ↔ w ≠ [] ∧ g.Member w) ∧
      ∀ b, (max b 1 < b₀ → g.generates? w b = none) ∧
        (b₀ ≤ max b 1 → g.generates? w b = some x) := by
  have hright : ∀ b, g.threshold w ≤ max b 1 →
      ∃ x, g.generates? w b = some x ∧ (x = true ↔ g.Member w) := by
    intro b hb
    obtain ⟨x, hx⟩ := Option.ne_none_iff_exists'.1 fun h ↦
      Nat.not_lt.2 hb (generates?_eq_none_iff.1 h)
    exact ⟨x, hx, generates?_eq_some hg.nonErasing hx⟩
  obtain ⟨x, -, hx⟩ := hright (g.threshold w) (Nat.le_max_left _ _)
  refine ⟨g.threshold w, x, one_le_threshold g w,
    hx.trans hg.nonErasing.ne_nil_and_member_iff.symm, fun b ↦ ⟨generates?_eq_none_iff.2, ?_⟩⟩
  intro hb
  obtain ⟨y, hy, hmember⟩ := hright b hb
  rw [hy, Bool.eq_iff_iff.2 (hmember.trans hx.symm)]

/-- In `S → S S | x` the word `x x` is found, though not at once. -/
theorem exists_budget_ambiguous :
    let g : Grammar := ⟨["S"], [⟨⟨0⟩, [.nonterm ⟨0⟩, .nonterm ⟨0⟩]⟩, ⟨⟨0⟩, [.term 'x']⟩], ⟨0⟩⟩
    g.WellFormed ∧ g.generates? ['x', 'x'] 1 = none ∧
      ∃ b₀, 1 < b₀ ∧ ∀ b, (b < b₀ → g.generates? ['x', 'x'] b = none) ∧
        (b₀ ≤ b → g.generates? ['x', 'x'] b = some true) := by
  intro g
  have hg : g.WellFormed := by decide
  have hone : g.generates? ['x', 'x'] 1 = none := by decide +kernel
  have hmany : g.generates? ['x', 'x'] 9 = some true := by decide +kernel
  obtain ⟨b₀, x, -, -, hb⟩ := exists_budget hg ['x', 'x']
  have hlt : 1 < b₀ := by
    by_contra hle
    have := (hb 1).2 (by omega)
    rw [hone] at this
    cases this
  have hle : b₀ ≤ 9 := by
    by_contra hlt'
    have := (hb 9).1 (by omega)
    rw [hmany] at this
    cases this
  have hx : some true = some x := hmany.symm.trans ((hb 9).2 (by omega))
  refine ⟨hg, hone, b₀, hlt, fun b ↦ ⟨fun h ↦ (hb b).1 (by omega), fun h ↦ ?_⟩⟩
  rw [hx]
  exact (hb b).2 (by omega)

end ContextFree.Grammar
