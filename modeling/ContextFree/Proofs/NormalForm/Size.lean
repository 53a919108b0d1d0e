import ContextFree.Proofs.Grammar.Alternatives
import ContextFree.Proofs.NormalForm.FixedPoint
import ContextFree.Proofs.NormalForm.Renumbering
import Mathlib.Algebra.BigOperators.Ring.Finset

/-!
# The size of a binary form

How many non-terminals and productions a binary form has is determined by two finite sets: the
right-hand sides that are inherited, and the terminals that do not stand alone.  A terminal costs
one non-terminal and one production, however often it occurs; a right-hand side of `n` symbols costs
`n - 2` non-terminals and `n - 1` productions for each non-terminal that inherits it, but at least
one production, and however often it is inherited (`Grammar.size_binarize`).  That a terminal is
lifted twice, that a production is folded again, or that a helper is left without productions would
change these numbers, but not the language.
-/

namespace ContextFree

namespace Grammar

open Role

variable {g : Grammar}

/-! ## What is counted -/

/-- The pairs of a non-terminal and a right-hand side, other than a single non-terminal, that the
non-terminal or another one in its unit closure has. -/
def nonUnitRules (g : Grammar) : Finset Production :=
  (g.nonterms.flatMap fun a ↦ (g.unitClosure a).flatMap fun b ↦
    (g.productions.filter fun p ↦ p.lhs = b ∧ p.unit? = none).map
      fun p ↦ Production.mk a p.rhs).toFinset

/-- The terminals of the productions that have two symbols or more. -/
def accompaniedTerminals (g : Grammar) : Finset Char :=
  ((g.productions.filter (2 ≤ ·.rhs.length)).flatMap
    fun p ↦ p.rhs.filterMap Symbol.term?).toFinset

theorem mem_nonUnitRules {p : Production} : p ∈ g.nonUnitRules ↔ p.lhs.index < g.size ∧
    ∃ b ∈ g.unitClosure p.lhs, ⟨b, p.rhs⟩ ∈ g.productions ∧ ∀ c, p.rhs ≠ [.nonterm c] := by
  obtain ⟨a, rhs⟩ := p
  have hunit : ∀ b, (Production.mk b rhs).unit? = none ↔ ∀ c, rhs ≠ [.nonterm c] := by
    intro b
    simp [Option.eq_none_iff_forall_ne_some, Production.unit?_eq_some_iff]
  simp only [nonUnitRules, List.mem_toFinset, List.mem_flatMap, mem_nonterms, List.mem_map,
    List.mem_filter, decide_eq_true_eq, Production.mk.injEq]
  constructor
  · rintro ⟨_, ha, b, hb, ⟨_, _⟩, ⟨hp, rfl, hnone⟩, rfl, rfl⟩
    exact ⟨ha, _, hb, hp, (hunit _).1 hnone⟩
  · rintro ⟨ha, b, hb, hp, hne⟩
    exact ⟨a, ha, b, hb, ⟨b, rhs⟩, ⟨hp, rfl, (hunit b).2 hne⟩, rfl, rfl⟩

theorem mem_accompaniedTerminals {c : Char} : c ∈ g.accompaniedTerminals ↔
    ∃ p ∈ g.productions, 2 ≤ p.rhs.length ∧ .term c ∈ p.rhs := by
  have hterm : ∀ s : Symbol, s.term? = some c ↔ s = .term c := by
    intro s
    cases s <;> simp
  simp [accompaniedTerminals, hterm, and_assoc]

/-! ## Counting roles -/

theorem length_nonterms (g : Grammar) : g.nonterms.length = g.size := by simp [nonterms]

section HasRoles

variable {ν : NonTerm → Role} {lifted : List Char} {dealt : List Production}
  (h : g.HasRoles ν lifted dealt)

include h

theorem HasRoles.toFinset_dealt : dealt.toFinset = g.nonUnitRules := by
  ext p
  rw [List.mem_toFinset, h.mem_dealt, mem_inherited, mem_nonUnitRules]

/-- What a production of two symbols or more has for terminals is lifted, if only because its
left-hand side inherits it from itself. -/
theorem HasRoles.toFinset_lifted (hg : g.WellFormed) : lifted.toFinset = g.accompaniedTerminals := by
  ext c
  rw [List.mem_toFinset, h.mem_lifted, mem_accompaniedTerminals]
  constructor
  · rintro ⟨p, hp, hone, hc⟩
    obtain ⟨b, -, hb, -⟩ := mem_inherited.1 ((h.mem_dealt p).1 hp).2
    have hpos := List.length_pos_of_mem hc
    exact ⟨_, hb, by change 2 ≤ p.rhs.length; omega, hc⟩
  · rintro ⟨p, hp, htwo, hc⟩
    have hself : p.lhs ∈ g.unitClosure p.lhs := mem_unitClosure.2 .refl
    refine ⟨p, (h.mem_dealt p).2 ⟨hg.lhs_lt p hp, mem_inherited.2 ⟨_, hself, hp, ?_⟩⟩, by omega, hc⟩
    rintro b hb
    simp [hb] at htwo

/-- A sum over what is dealt with is a sum over the inherited right-hand sides. -/
theorem HasRoles.sum_dealt (f : Production → Nat) :
    (dealt.map f).sum = ∑ p ∈ g.nonUnitRules, f p := by
  rw [← h.toFinset_dealt, List.sum_toFinset f h.dealt_nodup]

theorem HasRoles.length_lifted (hg : g.WellFormed) :
    lifted.length = g.accompaniedTerminals.card := by
  rw [← h.toFinset_lifted hg, List.toFinset_card_of_nodup h.lifted_nodup]

theorem HasRoles.size_eq : g.binarize.size =
    g.size + lifted.length + ∑ p ∈ g.nonUnitRules, (p.rhs.length - 2) := by
  have hlength := h.nonterms.length_eq
  simp only [List.length_map, List.length_append, List.length_flatMap, helpersOf,
    length_helpers] at hlength
  rw [length_nonterms, length_nonterms, h.sum_dealt] at hlength
  rw [hlength, Nat.add_assoc]

theorem HasRoles.length_productions : g.binarize.productions.length =
    lifted.length + ∑ p ∈ g.nonUnitRules, max (p.rhs.length - 1) 1 := by
  have hlength := h.productions.length_eq
  simp only [List.length_map, List.length_append, List.length_flatMap, length_rulesOf] at hlength
  rw [hlength, h.sum_dealt]

/-- The left-hand sides of a binary form: those of what is dealt with, and each fresh non-terminal
once. -/
theorem HasRoles.lhs_perm : (g.binarize.productions.map fun p ↦ ν p.lhs).Perm
    ((dealt.map (·.lhs)).map .original ++ (lifted.map .lifted ++ dealt.flatMap helpersOf)) :=
  calc g.binarize.productions.map (fun p ↦ ν p.lhs)
    _ = (g.binarize.productions.map (·.spell ν)).map Prod.fst := by
      rw [List.map_map]
      rfl
    List.Perm _ ((lifted.map liftedRule ++ dealt.flatMap rulesOf).map Prod.fst) :=
      h.productions.map _
    _ = lifted.map .lifted ++ dealt.flatMap fun p ↦ .original p.lhs :: helpersOf p := by
      simp [List.map_flatMap, map_fst_rulesOf, Function.comp_def, liftedRule]
    List.Perm _ (lifted.map .lifted ++
        ((dealt.map (·.lhs)).map .original ++ dealt.flatMap helpersOf)) := by
      rw [List.map_map]
      exact (List.map_append_flatMap_perm _ _ _).symm.append_left _
    List.Perm _ ((dealt.map (·.lhs)).map .original ++
        (lifted.map .lifted ++ dealt.flatMap helpersOf)) := List.perm_append_comm_assoc _ _ _

theorem HasRoles.injective {a b : NonTerm} (ha : a.index < g.binarize.size)
    (hb : b.index < g.binarize.size) (heq : ν a = ν b) : a = b :=
  List.inj_on_of_nodup_map h.nodup (mem_nonterms.2 ha) (mem_nonterms.2 hb) heq

/-- A fresh non-terminal does not have the role of one of the grammar. -/
theorem HasRoles.ne_original {a : NonTerm} (hge : g.size ≤ a.index)
    (hlt : a.index < g.binarize.size) (b : NonTerm) : ν a ≠ .original b := by
  intro heq
  have hmem := h.nonterms.mem_iff.1 (List.mem_map_of_mem (mem_nonterms.2 hlt))
  simp only [heq, List.mem_append, List.mem_map, mem_nonterms, original.injEq, exists_eq_right,
    reduceCtorEq, and_false, exists_false, List.mem_flatMap, helpersOf, mem_helpers, or_false]
    at hmem
  have hsame := h.injective hlt (hmem.trans_le (hge.trans hlt.le)) (heq.trans (h.original b hmem).symm)
  rw [hsame] at hge
  exact Nat.not_le.2 hmem hge

/-- A fresh non-terminal has one production. -/
theorem HasRoles.length_alternatives (hg : g.WellFormed) {a : NonTerm} (hge : g.size ≤ a.index)
    (hlt : a.index < g.binarize.size) : (g.binarize.alternatives a).length = 1 := by
  have hskip : ∀ (l : List NonTerm) (roles : List Role),
      (l.map Role.original ++ roles).count (ν a) = roles.count (ν a) := by
    intro l roles
    rw [List.count_append, List.count_eq_zero.2, Nat.zero_add]
    intro hmem
    obtain ⟨b, -, heq⟩ := List.mem_map.1 hmem
    exact h.ne_original hge hlt b heq.symm
  calc (g.binarize.alternatives a).length
    _ = (g.binarize.productions.filter (·.lhs = a)).length := by
      rw [← map_production_alternatives, List.length_map]
    _ = (g.binarize.productions.map fun p ↦ ν p.lhs).count (ν a) := by
      rw [← List.countP_eq_length_filter, List.count, List.countP_map]
      refine List.countP_congr fun p hp ↦ ?_
      have hlhs := (wellFormed_binarize hg).lhs_lt p hp
      simpa using ⟨congrArg ν, h.injective hlhs hlt⟩
    _ = (lifted.map Role.lifted ++ dealt.flatMap helpersOf).count (ν a) := by
      rw [h.lhs_perm.count_eq, hskip]
    _ = (g.binarize.nonterms.map ν).count (ν a) := by
      rw [h.nonterms.count_eq, hskip]
    _ = 1 := List.count_eq_one_of_mem h.nodup (List.mem_map_of_mem (mem_nonterms.2 hlt))

end HasRoles

/-! ## The result -/

/-- The size of a binary form: each accompanied terminal is lifted once, each inherited right-hand
side is folded once for each non-terminal that inherits it, no production is there twice, and each
fresh non-terminal has one production. -/
theorem size_binarize (hg : g.WellFormed) :
    g.binarize.size = g.size + g.accompaniedTerminals.card +
        ∑ p ∈ g.nonUnitRules, (p.rhs.length - 2) ∧
      g.binarize.productions.length = g.accompaniedTerminals.card +
        ∑ p ∈ g.nonUnitRules, max (p.rhs.length - 1) 1 ∧
      g.binarize.productions.Nodup ∧
      ∀ a : NonTerm, g.size ≤ a.index → a.index < g.binarize.size →
        (g.binarize.alternatives a).length = 1 := by
  obtain ⟨ν, lifted, dealt, h⟩ := exists_hasRoles hg
  rw [← h.length_lifted hg]
  exact ⟨h.size_eq, h.length_productions, nodup_productions_binarize hg,
    fun a ↦ h.length_alternatives hg⟩

/-- In `S → T | a T b a`, `T → S | a T b a | c` each of the two non-terminals inherits two
right-hand sides, the long one from both, and two terminals are lifted. -/
theorem size_binarize_mutual :
    let long : List Symbol := [.term 'a', .nonterm ⟨1⟩, .term 'b', .term 'a']
    let g : Grammar := ⟨["S", "T"], [⟨⟨0⟩, [.nonterm ⟨1⟩]⟩, ⟨⟨0⟩, long⟩, ⟨⟨1⟩, [.nonterm ⟨0⟩]⟩,
      ⟨⟨1⟩, long⟩, ⟨⟨1⟩, [.term 'c']⟩], ⟨0⟩⟩
    g.WellFormed ∧ g.binarize.size = 2 + 2 + (2 + 2) ∧
      g.binarize.productions.length = 2 + (3 + 1 + (3 + 1)) ∧ g.binarize.productions.Nodup ∧
      ∀ a : NonTerm, 2 ≤ a.index → a.index < 2 + 2 + (2 + 2) →
        (g.binarize.alternatives a).length = 1 := by
  intro long g
  have hg : g.WellFormed := by decide
  have hterminals : g.accompaniedTerminals.card = 2 := by decide
  have hrules : g.nonUnitRules =
      {⟨⟨0⟩, long⟩, ⟨⟨0⟩, [.term 'c']⟩, ⟨⟨1⟩, long⟩, ⟨⟨1⟩, [.term 'c']⟩} := by
    have hfirst : g.unitClosure ⟨0⟩ = [⟨0⟩, ⟨1⟩] := by cbv
    have hsecond : g.unitClosure ⟨1⟩ = [⟨1⟩, ⟨0⟩] := by cbv
    have hnonterms : g.nonterms = [⟨0⟩, ⟨1⟩] := rfl
    rw [nonUnitRules, hnonterms, List.flatMap_cons, List.flatMap_singleton, hfirst, hsecond]
    decide
  obtain ⟨hsize, hlength, hnodup, halternatives⟩ := size_binarize hg
  rw [hterminals, hrules] at hsize hlength
  refine ⟨hg, hsize, hlength, hnodup, fun a hge hlt ↦ halternatives a hge ?_⟩
  rw [hsize]
  exact hlt

end Grammar

end ContextFree
