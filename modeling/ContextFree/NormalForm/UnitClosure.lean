import ContextFree.BreadthFirst
import ContextFree.Grammar.Basic

/-!
# Unit closures

A unit production `A → B` makes `A` inherit everything that `B` derives.  The closure of a
non-terminal lists, breadth first, the non-terminals that unit productions lead to.
-/

namespace ContextFree.Grammar

/-- The non-terminals to which the unit productions of `a` lead, in the order of the
productions. -/
def unitTargets (g : Grammar) (a : NonTerm) : List NonTerm :=
  (g.alternatives a).filterMap fun p ↦ (g.production p).unit?

theorem mem_filterMap_of_mem_unitTargets {g : Grammar} {a b : NonTerm}
    (h : b ∈ g.unitTargets a) : b ∈ g.productions.filterMap Production.unit? := by
  obtain ⟨i, hi, hb⟩ := List.mem_filterMap.1 h
  obtain ⟨p, hp, -⟩ := mem_alternatives.1 hi
  obtain ⟨hlt, rfl⟩ := List.getElem?_eq_some_iff.1 hp
  rw [production_of_lt hlt] at hb
  exact List.mem_filterMap.2 ⟨_, List.getElem_mem hlt, hb⟩

/-- Unit productions lead from `a` to `a` or to one of the finitely many targets that the grammar
has. -/
def unitEnclosure (g : Grammar) (a : NonTerm) : Enclosure g.unitTargets where
  Inside b := b ∈ a :: g.productions.filterMap Production.unit?
  finite := ⟨_, fun _ h ↦ h⟩
  closed _ h := .tail _ (mem_filterMap_of_mem_unitTargets h)

/-- A non-terminal, followed by the others that unit productions lead to from it. -/
def unitClosure (g : Grammar) (a : NonTerm) : List NonTerm :=
  breadthFirst (g.unitEnclosure a) a (.head _)

end ContextFree.Grammar
