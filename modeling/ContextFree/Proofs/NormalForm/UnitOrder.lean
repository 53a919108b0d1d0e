import ContextFree.Proofs.BreadthFirst.Order
import ContextFree.Proofs.Grammar.Alternatives
import ContextFree.Proofs.NormalForm.UnitClosure

/-!
# The order of a unit closure

The closure of a non-terminal lists what chains of unit productions lead to by the length of the
shortest chain.  What comes in through different non-terminals has the order of these, and what
comes in through the same one has the order of its productions, so the closure is determined
(`unitClosure_breadthFirst`).  This order is the one in which a non-terminal inherits right-hand
sides.
-/

namespace ContextFree.Grammar

variable {g : Grammar} {a b c : NonTerm}

/-- There is a unit production from one non-terminal to another. -/
def UnitStep (g : Grammar) (a b : NonTerm) : Prop := ⟨a, [.nonterm b]⟩ ∈ g.productions

instance (g : Grammar) (a b : NonTerm) : Decidable (g.UnitStep a b) :=
  inferInstanceAs (Decidable (_ ∈ _))

/-- The non-terminal through which another one comes into the closure of `a`: of those with the unit
production for it the first that is visited. -/
def discoverer? (g : Grammar) (a b : NonTerm) : Option NonTerm :=
  (g.unitClosure a).find? (g.UnitStep · b)

theorem mem_unitTargets_eq_unitStep (g : Grammar) :
    (fun x y ↦ y ∈ g.unitTargets x) = g.UnitStep := by
  ext x y
  exact mem_unitTargets

theorem find?_unitTargets (g : Grammar) (a b : NonTerm) :
    (g.unitClosure a).find? (b ∈ g.unitTargets ·) = g.discoverer? a b := by
  rw [discoverer?]
  congr 1
  ext x
  exact decide_eq_decide.2 mem_unitTargets

/-- Unit productions of one non-terminal lead to their targets in the order of the productions. -/
theorem idxOf_unitTargets_lt_iff (g : Grammar) (a b c : NonTerm) :
    (g.unitTargets a).idxOf b < (g.unitTargets a).idxOf c ↔
      g.productions.idxOf ⟨a, [.nonterm b]⟩ < g.productions.idxOf ⟨a, [.nonterm c]⟩ := by
  have htargets : g.unitTargets a =
      g.productions.filterMap fun p ↦ if p.lhs = a then p.unit? else none := by
    rw [unitTargets, ← Function.comp_def, ← List.filterMap_map, map_production_alternatives,
      List.filterMap_filter]
    simp
  have hone : ∀ (b : NonTerm) (p : Production),
      (if p.lhs = a then p.unit? else none) = some b ↔ p = ⟨a, [.nonterm b]⟩ := by
    rintro b ⟨lhs, rhs⟩
    rw [Option.ite_none_right_eq_some, Production.unit?_eq_some_iff, Production.mk.injEq]
  rw [htargets]
  exact idxOf_filterMap_lt_iff (hone b) (hone c) _

/-- What is in the closure, other than its first element, comes in through something. -/
theorem exists_discoverer? (h : b ∈ g.unitClosure a) (hne : b ≠ a) :
    ∃ x, g.discoverer? a b = some x := by
  rw [mem_unitClosure] at h
  rcases h.cases_tail with rfl | ⟨x, hx, hstep⟩
  · exact absurd rfl hne
  · refine Option.isSome_iff_exists.1 (List.find?_isSome.2 ⟨x, mem_unitClosure.2 hx, ?_⟩)
    exact decide_eq_true (mem_unitTargets.1 hstep)

theorem unitClosure_eq_cons (g : Grammar) (a : NonTerm) : ∃ rest, g.unitClosure a = a :: rest := by
  have hinside : ∀ b ∈ [a], (g.unitEnclosure a).Inside b := fun b hb ↦
    List.mem_singleton.1 hb ▸ .head _
  obtain ⟨_, heq⟩ : ∃ h, g.unitClosure a = a :: Search.visits (g.unitEnclosure a) _ h :=
    Search.visits_cons (g.unitEnclosure a) hinside
  exact ⟨_, heq⟩

/-- A unit closure is the outcome of a breadth-first search.  The rounds of the search end, and what
they find, in the order in which they find it, is the closure.  It begins with the non-terminal
itself, has nothing twice, and holds exactly what chains of unit productions lead to, by the length
of the shortest chain.  Behind the beginning everything comes in through something, and of two
non-terminals that one comes first which comes in through the earlier one or, if they come in
through the same one, by the earlier production.  The closure of a foreign non-terminal holds
nothing else. -/
theorem unitClosure_breadthFirst (hg : g.WellFormed) (a : NonTerm) :
    (∃ seen, Relation.ReflTransGen (Search.Round g.unitTargets) (.start a) ⟨seen, []⟩ ∧
      seen.reverse = g.unitClosure a) ∧
    (∃ rest, g.unitClosure a = a :: rest) ∧ (g.unitClosure a).Nodup ∧
    (∀ b, b ∈ g.unitClosure a ↔ Relation.ReflTransGen g.UnitStep a b) ∧
    (g.unitClosure a).Pairwise (distance g.UnitStep a · ≤ distance g.UnitStep a ·) ∧
    (∀ b ∈ g.unitClosure a, b ≠ a → ∃ x, g.discoverer? a b = some x) ∧
    (∀ b c x y, b ≠ a → c ≠ a → g.discoverer? a b = some x → g.discoverer? a c = some y →
      ((g.unitClosure a).idxOf b < (g.unitClosure a).idxOf c ↔
        (g.unitClosure a).idxOf x < (g.unitClosure a).idxOf y ∨
          x = y ∧ g.productions.idxOf ⟨x, [.nonterm b]⟩ <
            g.productions.idxOf ⟨x, [.nonterm c]⟩)) ∧
    (g.size ≤ a.index → g.unitClosure a = [a]) := by
  refine ⟨exists_rounds_breadthFirst _ _, unitClosure_eq_cons g a, nodup_breadthFirst _ _,
    fun b ↦ ?_, ?_, fun b ↦ exists_discoverer?, ?_, fun hforeign ↦ ?_⟩
  · rw [mem_unitClosure, mem_unitTargets_eq_unitStep]
  · rw [← mem_unitTargets_eq_unitStep]
    exact pairwise_distance_breadthFirst _ _
  · intro b c x y hb hc hx hy
    rw [← find?_unitTargets] at hx hy
    rw [← idxOf_unitTargets_lt_iff]
    exact idxOf_breadthFirst_lt_iff _ _ hb hc hx hy
  · have hnone : g.unitTargets a = [] := by
      rw [unitTargets, alternatives_of_size_le hg hforeign, List.filterMap_nil]
    exact unitClosure_eq_singleton hnone

/-- In `S → U | T | S`, `T → V`, `U → V | S` everything is reached from `S`, and `U` comes before `T`
although `T` has the lower number.  Unit productions lead back to `S` in two ways. -/
theorem unitClosure_breadthFirst_cycle :
    let g : Grammar := ⟨["S", "T", "U", "V"], [⟨⟨0⟩, [.nonterm ⟨2⟩]⟩, ⟨⟨0⟩, [.nonterm ⟨1⟩]⟩,
      ⟨⟨0⟩, [.nonterm ⟨0⟩]⟩, ⟨⟨1⟩, [.nonterm ⟨3⟩]⟩, ⟨⟨2⟩, [.nonterm ⟨3⟩]⟩, ⟨⟨2⟩, [.nonterm ⟨0⟩]⟩], ⟨0⟩⟩
    g.WellFormed ∧ (g.unitClosure ⟨0⟩).Nodup ∧ ⟨3⟩ ∈ g.unitClosure ⟨0⟩ ∧
      (g.unitClosure ⟨0⟩).idxOf ⟨2⟩ < (g.unitClosure ⟨0⟩).idxOf ⟨1⟩ ∧
      g.unitClosure ⟨7⟩ = [⟨7⟩] := by
  intro g
  have hg : g.WellFormed := by decide
  obtain ⟨-, ⟨rest, hstart⟩, hnodup, hmem, -, -, horder, -⟩ := unitClosure_breadthFirst hg ⟨0⟩
  obtain ⟨-, -, -, -, -, -, -, hforeign⟩ := unitClosure_breadthFirst hg ⟨7⟩
  have hdiscoverer : ∀ b, g.UnitStep ⟨0⟩ b → g.discoverer? ⟨0⟩ b = some ⟨0⟩ := by
    intro b hb
    rw [discoverer?, hstart]
    exact List.find?_cons_of_pos (decide_eq_true hb)
  have hchain : Relation.ReflTransGen g.UnitStep ⟨0⟩ ⟨3⟩ :=
    .head (b := ⟨1⟩) (by decide) (.single (by decide))
  refine ⟨hg, hnodup, (hmem ⟨3⟩).2 hchain, ?_, hforeign (by decide)⟩
  exact (horder ⟨2⟩ ⟨1⟩ ⟨0⟩ ⟨0⟩ (by decide) (by decide) (hdiscoverer _ (by decide))
    (hdiscoverer _ (by decide))).2 (.inr ⟨rfl, by decide⟩)

end ContextFree.Grammar
