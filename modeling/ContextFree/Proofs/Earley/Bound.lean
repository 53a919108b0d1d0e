import ContextFree.Proofs.Earley.Run
import Mathlib.Algebra.BigOperators.Ring.List
import Mathlib.Algebra.Ring.Nat
import Mathlib.Data.Nat.Cast.Basic
import Mathlib.Data.List.Perm.Subperm

/-!
# How many items a set can hold

An item of a set has its dot in front just if it begins at the position of the set; otherwise it
began before, for no production is empty.  So the set of position `i` has room for the beginnings of
all productions and, for each symbol of a right-hand side, for one item from each earlier position:
`size_le_capacity`.
-/

namespace ContextFree

/-- The number of symbols on right-hand sides. -/
def Grammar.symbolCount (g : Grammar) : Nat := (g.productions.map (·.rhs.length)).sum

namespace Earley

variable {g : Grammar} {w : List Char}

/-- Without empty productions, the dot stands in front just if nothing has been read. -/
theorem Item.Reads.dot_eq_zero_iff (hg : g.NonErasing) {i : Nat} {item : Item}
    (h : item.Reads g w i) : item.dot = 0 ↔ item.origin = i := by
  have hlength := length_slice w item.origin h.position_le
  constructor
  · intro hdot
    have hnil : slice w item.origin i = [] := by simpa [hdot] using h.yields
    rw [hnil, List.length_nil] at hlength
    exact Nat.le_antisymm h.origin_le (Nat.le_of_sub_eq_zero hlength.symm)
  · intro horigin
    have hle := h.yields.length_le hg
    rw [hlength, horigin, Nat.sub_self, List.length_take, Nat.min_eq_left h.dot_le] at hle
    exact Nat.le_zero.1 hle

/-- The most items that the set of a position can hold. -/
def capacity (g : Grammar) (i : Nat) : Nat := g.productions.length + i * g.symbolCount

theorem capacity_mono (g : Grammar) {i j : Nat} (h : i ≤ j) : capacity g i ≤ capacity g j :=
  Nat.add_le_add_left (Nat.mul_le_mul_right _ h) _

/-- The items that the set of a position can hold: the productions that begin there, and those that
began before and have been read in part. -/
def candidates (g : Grammar) (i : Nat) : List Item :=
  (List.range g.productions.length).map (fun p ↦ .seed ⟨p⟩ i) ++
    g.productions.zipIdx.flatMap fun (q, p) ↦ (List.range q.rhs.length).flatMap fun d ↦
      (List.range i).map fun j ↦ ⟨⟨p⟩, d + 1, j⟩

theorem length_candidates (g : Grammar) (i : Nat) : (candidates g i).length = capacity g i := by
  have hmap : (g.productions.zipIdx.map fun x ↦ x.1.rhs.length * i) =
      (g.productions.zipIdx.map Prod.fst).map fun q ↦ q.rhs.length * i := by
    rw [List.map_map]
    rfl
  have hsum : (g.productions.zipIdx.map fun x ↦ x.1.rhs.length * i).sum = i * g.symbolCount := by
    rw [hmap, List.zipIdx_map_fst, List.sum_map_mul_right, Nat.mul_comm, Grammar.symbolCount]
  simp [candidates, capacity, List.length_flatMap, ← hsum]

theorem Item.Reads.mem_candidates (hg : g.NonErasing) {i : Nat} {item : Item}
    (h : item.Reads g w i) : item ∈ candidates g i := by
  obtain ⟨⟨p⟩, dot, origin⟩ := item
  have hp : p < g.productions.length := h.production_lt
  cases dot with
  | zero =>
    obtain rfl : origin = i := (h.dot_eq_zero_iff hg).1 rfl
    exact List.mem_append_left _ (List.mem_map.2 ⟨p, List.mem_range.2 hp, rfl⟩)
  | succ dot =>
    have horigin : origin < i := Nat.lt_of_le_of_ne h.origin_le fun heq ↦
      absurd ((h.dot_eq_zero_iff hg).2 heq) (Nat.succ_ne_zero dot)
    have hdot : dot < g.productions[p].rhs.length := by
      have hle := h.dot_le
      rwa [Grammar.production_of_lt hp] at hle
    refine List.mem_append_right _ (List.mem_flatMap.2 ⟨(g.productions[p], p), ?_, ?_⟩)
    · exact List.mem_zipIdx_iff_getElem?.2 (List.getElem?_eq_getElem hp)
    · exact List.mem_flatMap.2 ⟨dot, List.mem_range.2 hdot,
        List.mem_map.2 ⟨origin, List.mem_range.2 horigin, rfl⟩⟩

/-- No set holds more than it can, whatever the limit. -/
theorem Run.Invariant.size_le_capacity (hg : g.NonErasing) {limit : Nat} {run : Run}
    (inv : Run.Invariant g w limit run) {i : Nat} (hi : i ≤ w.length) :
    (run.set i).size ≤ capacity g i := by
  have hsubset : (run.set i).items.toList ⊆ candidates g i := fun item hitem ↦
    (inv.reads (Array.mem_def.2 hitem)).mem_candidates hg
  have hle := (List.subperm_of_subset (inv.coherent i hi).nodup hsubset).length_le
  rwa [length_candidates, Array.length_toList] at hle

theorem Run.Invariant.size_le_capacity_length (hg : g.NonErasing) {limit : Nat} {run : Run}
    (inv : Run.Invariant g w limit run) (i : Nat) :
    (run.set i).size ≤ capacity g w.length := by
  by_cases hi : i ≤ w.length
  · exact Nat.le_trans (inv.size_le_capacity hg hi) (capacity_mono g hi)
  · have hsize : run.sets.size ≤ i := inv.size_sets ▸ Nat.lt_of_not_le hi
    rw [set_of_size_le hsize]
    exact Nat.zero_le _

end Earley

end ContextFree
