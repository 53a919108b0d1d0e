import ContextFree.Grammar.Basic
import Mathlib.Data.List.Basic

/-!
# The alternatives of a non-terminal

The alternatives are defined by looking through all productions, so they are the productions with
that left-hand side in ascending order.  One pass that drops every production into the slot of its
left-hand side (`slots`) sorts them out as well, and it loses none: there is a slot for each
left-hand side.
-/

namespace ContextFree.Grammar

variable {g : Grammar}

/-! ## Which productions, and in which order -/

theorem pairwise_alternatives (g : Grammar) (a : NonTerm) :
    (g.alternatives a).Pairwise (·.index < ·.index) := by
  have hascending : g.productions.zipIdx.Pairwise (·.2 < ·.2) := by
    rw [← List.pairwise_map, List.zipIdx_map_snd]
    exact List.pairwise_lt_range' 1
  refine hascending.filterMap _ fun x y hxy p hp q hq ↦ ?_
  obtain ⟨-, hp⟩ := Option.ite_none_right_eq_some.1 hp
  obtain ⟨-, hq⟩ := Option.ite_none_right_eq_some.1 hq
  rwa [← Option.some.inj hp, ← Option.some.inj hq]

/-- The alternatives of a non-terminal are the numbers of its productions. -/
theorem mem_alternatives_iff {a : NonTerm} {p : ProdId} :
    p ∈ g.alternatives a ↔ p.index < g.productions.length ∧ (g.production p).lhs = a := by
  constructor
  · intro h
    obtain ⟨hlt, -, hlhs⟩ := production_of_mem_alternatives h
    exact ⟨hlt, hlhs⟩
  · rintro ⟨hlt, rfl⟩
    exact mem_alternatives.2 ⟨_, List.getElem?_eq_getElem hlt, by rw [production_of_lt hlt]⟩

/-- The productions behind the alternatives of a non-terminal, in their order. -/
theorem map_production_alternatives (g : Grammar) (a : NonTerm) :
    (g.alternatives a).map g.production = g.productions.filter (·.lhs = a) := by
  have hproduction : ∀ x ∈ g.productions.zipIdx,
      (if x.1.lhs = a then some (ProdId.mk x.2) else none).map g.production =
        (Option.guard fun p : Production ↦ decide (p.lhs = a)) x.1 := by
    intro x hx
    obtain ⟨hlt, heq⟩ := List.getElem?_eq_some_iff.1 (List.mem_zipIdx_iff_getElem?.1 hx)
    by_cases h : x.1.lhs = a
    · rw [if_pos h, Option.map_some, production_of_lt hlt, heq, eq_comm, Option.guard_eq_some_iff]
      exact ⟨rfl, by simpa using h⟩
    · simp [h, Option.guard]
  calc (g.alternatives a).map g.production
    _ = g.productions.zipIdx.filterMap
        ((Option.guard fun p : Production ↦ decide (p.lhs = a)) ∘ Prod.fst) := by
      rw [alternatives, List.map_filterMap]
      exact List.filterMap_congr hproduction
    _ = g.productions.filter (·.lhs = a) := by
      rw [← List.filterMap_map, List.zipIdx_map_fst, List.filterMap_eq_filter]

theorem alternatives_of_size_le (hg : g.WellFormed) {a : NonTerm} (h : g.size ≤ a.index) :
    g.alternatives a = [] := by
  refine List.eq_nil_iff_forall_not_mem.2 fun p hp ↦ ?_
  obtain ⟨-, hmem, rfl⟩ := production_of_mem_alternatives hp
  exact Nat.not_le.2 (hg.lhs_lt _ hmem) h

/-! ## Slots -/

/-- Drops a production into the slot of its left-hand side, behind those that are there. -/
def sortInto (slots : Array (List ProdId)) : Production × Nat → Array (List ProdId)
  | (p, i) => slots.modify p.lhs.index (· ++ [⟨i⟩])

/-- The productions, sorted in one pass into a slot for each non-terminal. -/
def slots (g : Grammar) : Array (List ProdId) :=
  g.productions.zipIdx.foldl sortInto (.replicate g.size [])

@[simp] theorem size_sortInto (slots : Array (List ProdId)) (x : Production × Nat) :
    (sortInto slots x).size = slots.size := Array.size_modify

/-- Each slot receives the productions of its own non-terminal, in the order in which they come. -/
theorem getElem?_foldl_sortInto (l : List (Production × Nat)) (slots : Array (List ProdId))
    (a : NonTerm) :
    (l.foldl sortInto slots)[a.index]? = slots[a.index]?.map
      (· ++ l.filterMap fun (p, i) ↦ if p.lhs = a then some ⟨i⟩ else none) := by
  induction l generalizing slots with
  | nil => simp
  | cons x l ih =>
    obtain ⟨p, i⟩ := x
    rw [List.foldl_cons, ih, sortInto, Array.getElem?_modify]
    by_cases h : p.lhs = a
    · simp [h, Function.comp_def]
    · have hne : p.lhs.index ≠ a.index := fun heq ↦ h (NonTerm.ext heq)
      simp [h, hne]

@[simp] theorem size_slots (g : Grammar) : g.slots.size = g.size := by
  have hsize : ∀ (l : List (Production × Nat)) (slots : Array (List ProdId)),
      (l.foldl sortInto slots).size = slots.size := fun l slots ↦
    List.foldlRecOn l sortInto (motive := fun slots' ↦ slots'.size = slots.size) rfl
      fun slots' h x _ ↦ (size_sortInto slots' x).trans h
  rw [slots, hsize, Array.size_replicate]

theorem getElem?_slots {a : NonTerm} (h : a.index < g.size) :
    g.slots[a.index]? = some (g.alternatives a) := by
  rw [slots, getElem?_foldl_sortInto, Array.getElem?_replicate, if_pos h]
  rfl

/-- What the slots say of a non-terminal, which is nothing if it is foreign. -/
theorem getD_slots (hg : g.WellFormed) (a : NonTerm) :
    g.slots[a.index]?.getD [] = g.alternatives a := by
  by_cases h : a.index < g.size
  · rw [getElem?_slots h, Option.getD_some]
  · have hnone : g.slots[a.index]? = none := by simpa using h
    rw [hnone, Option.getD_none, alternatives_of_size_le hg (Nat.le_of_not_lt h)]

end ContextFree.Grammar
