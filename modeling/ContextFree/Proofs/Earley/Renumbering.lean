import ContextFree.Proofs.Earley.Truncation
import ContextFree.Proofs.Grammar.Renaming

/-!
# Left-to-right recognition in another order

Renumbering a grammar reorders what a run does, and with it the items of the sets and the place
where a limit is hit.  But rules do not look at the order: an item can be deduced just if its
renumbered form can.  So the sets of whole runs have the same sizes (`IsWhole.size_set_eq`), and a
limit that stops one run stops the other.
-/

namespace ContextFree

/-- The same verdict, but that a set of another position may be the one that was full. -/
inductive Verdict.Alike : Verdict → Verdict → Prop where
  | refl (v : Verdict) : v.Alike v
  | tooManyItems (i j limit : Nat) :
      (exhausted (.tooManyItems i limit)).Alike (exhausted (.tooManyItems j limit))

variable {g g' : Grammar} {σ : NonTerm → NonTerm} {π : ProdId → ProdId}

/-! ## The numbers of productions -/

/-- Numbers for productions that go with those for non-terminals. -/
structure Grammar.Renumbers (σ : NonTerm → NonTerm) (π : ProdId → ProdId) (g g' : Grammar) :
    Prop where
  start : σ g.start = g'.start
  index_lt : ∀ p : ProdId, p.index < g.productions.length → (π p).index < g'.productions.length
  production : ∀ p : ProdId, p.index < g.productions.length →
    g'.production (π p) = (g.production p).rename σ
  injective : ∀ p q : ProdId, p.index < g.productions.length → q.index < g.productions.length →
    π p = π q → p = q

/-- The productions of a renumbered grammar are those of the grammar in some order. -/
theorem Grammar.Renames.exists_renumbers (h : Renames σ g g') : ∃ π, Renumbers σ π g g' := by
  let place := h.productions.idxBij
  have hlength : (g.productions.map (·.rename σ)).length = g.productions.length :=
    List.length_map _
  let π : ProdId → ProdId := fun p ↦
    if hp : p.index < g.productions.length then ⟨place ⟨p.index, hlength ▸ hp⟩⟩ else p
  have hπ : ∀ (p : ProdId) (hp : p.index < g.productions.length),
      π p = ⟨place ⟨p.index, hlength ▸ hp⟩⟩ := fun p hp ↦ dif_pos hp
  refine ⟨π, h.start, fun p hp ↦ ?_, fun p hp ↦ ?_, fun p q hp hq heq ↦ ?_⟩
  · rw [hπ p hp]
    exact Fin.isLt _
  · rw [hπ p hp, production_of_lt (Fin.isLt _), production_of_lt hp,
      h.productions.getElem_idxBij_eq_getElem, List.getElem_map]
  · rw [hπ p hp, hπ q hq] at heq
    have hindex := h.productions.idxBij_injective (Fin.ext (congrArg ProdId.index heq))
    exact ProdId.ext (congrArg Fin.val hindex)

namespace Earley

/-- The item of the renumbered production. -/
def Item.renumber (π : ProdId → ProdId) (item : Item) : Item :=
  { item with production := π item.production }

section Renumbers

variable (h : Grammar.Renumbers σ π g g')

include h

theorem mem_alternatives_of_renumbers {a : NonTerm} {p : ProdId} (hp : p ∈ g.alternatives a) :
    π p ∈ g'.alternatives (σ a) := by
  obtain ⟨hlt, -, hlhs⟩ := Grammar.production_of_mem_alternatives hp
  refine Grammar.mem_alternatives.2 ⟨_, List.getElem?_eq_getElem (h.index_lt p hlt), ?_⟩
  rw [← Grammar.production_of_lt, h.production p hlt, ← hlhs]
  rfl

theorem next?_renumber {item : Item} (hlt : item.production.index < g.productions.length) :
    (item.renumber π).next? g' = (item.next? g).map (·.rename σ) := by
  change (g'.production (π item.production)).rhs[item.dot]? = _
  rw [h.production _ hlt]
  exact List.getElem?_map

theorem lhs_renumber {item : Item} (hlt : item.production.index < g.productions.length) :
    (item.renumber π).lhs g' = σ (item.lhs g) :=
  congrArg Production.lhs (h.production _ hlt)

variable {w : List Char}

/-- A rule infers the renumbered item from the renumbered items. -/
theorem exists_infers_renumber {In In' : Nat → Item → Prop}
    (hlt : ∀ i item, In i item → item.production.index < g.productions.length)
    (hIn : ∀ i item, In i item → In' i (item.renumber π)) {e : Event} {i : Nat} {item : Item}
    (hi : Infers g w In e i item) : ∃ e', Infers g' w In' e' i (item.renumber π) := by
  cases hi with
  | seeded hp => exact ⟨_, .seeded (h.start ▸ mem_alternatives_of_renumbers h hp)⟩
  | predicted hitem hnext hp =>
    refine ⟨_, .predicted (hIn _ _ hitem) ?_ (mem_alternatives_of_renumbers h hp)⟩
    rw [next?_renumber h (hlt _ _ hitem), hnext]
    rfl
  | scanned hitem hnext hc =>
    refine ⟨_, .scanned (hIn _ _ hitem) ?_ hc⟩
    rw [next?_renumber h (hlt _ _ hitem), hnext]
    rfl
  | @completed i item waiting hitem hnext hwaiting hawaited =>
    refine ⟨_, .completed (hIn _ _ hitem) ?_ (hIn _ _ hwaiting) ?_⟩
    · rw [next?_renumber h (hlt _ _ hitem), hnext]
      rfl
    · rw [next?_renumber h (hlt _ _ hwaiting), hawaited, lhs_renumber h (hlt _ _ hitem)]
      rfl

/-- What is deduced is deduced in the renumbered grammar. -/
theorem deduces_renumber {i : Nat} {item : Item} (hd : Deduces g w i item) :
    Deduces g' w i (item.renumber π) := by
  refine hd.induction (P := fun i item ↦ Deduces g' w i (item.renumber π)) fun e i item hi ↦ ?_
  obtain ⟨e', hi'⟩ := exists_infers_renumber h (fun _ _ hd ↦ hd.1.reads.production_lt)
    (fun _ _ hd ↦ hd.2) hi
  exact Deduces.closed _ _ _ hi'

/-- Different items stay different, so the set of a whole run holds at least as many in the
renumbered grammar. -/
theorem Run.size_set_le_of_renumbers (hg : g.NonErasing) (hg' : g'.NonErasing) {limit limit' : Nat}
    {run run' : Run} (hrun : overInput g limit w = .ok run)
    (hrun' : overInput g' limit' w = .ok run') {i : Nat} (hi : i ≤ w.length) :
    (run.set i).size ≤ (run'.set i).size := by
  have inv := (visited_of_overInput hg hrun).invariant
  have hlt : ∀ item ∈ (run.set i).items.toList, item.production.index < g.productions.length :=
    fun item hitem ↦ (inv.reads (Array.mem_def.2 hitem)).production_lt
  have hnodup : ((run.set i).items.toList.map (Item.renumber π)).Nodup := by
    refine (inv.coherent i hi).nodup.map_on fun item hitem item' hitem' heq ↦ ?_
    obtain ⟨p, dot, origin⟩ := item
    obtain ⟨p', dot', origin'⟩ := item'
    simp only [Item.renumber, Item.mk.injEq] at heq
    obtain ⟨hp, rfl, rfl⟩ := heq
    rw [h.injective p p' (hlt _ hitem) (hlt _ hitem') hp]
  have hsubset : (run.set i).items.toList.map (Item.renumber π) ⊆ (run'.set i).items.toList := by
    intro item' hitem'
    obtain ⟨item, hitem, rfl⟩ := List.mem_map.1 hitem'
    have hd := (holds_iff_deduces hg hrun).1 (Array.mem_def.2 hitem)
    exact Array.mem_def.1 ((holds_iff_deduces hg' hrun').2 (deduces_renumber h hd))
  have hle := (List.subperm_of_subset hnodup hsubset).length_le
  rwa [List.length_map, Array.length_toList, Array.length_toList] at hle

end Renumbers

/-! ## Whole runs -/

variable {w : List Char}

/-- The sets of whole runs have the same sizes, whatever the order. -/
theorem Run.IsWhole.size_set_eq (h : Grammar.Renames σ g g') (hg : g.WellFormed)
    (hg' : g'.WellFormed) {run run' : Run} (hrun : IsWhole g w run) (hrun' : IsWhole g' w run')
    (i : Nat) : (run'.set i).size = (run.set i).size := by
  by_cases hi : i ≤ w.length
  · obtain ⟨π, hπ⟩ := h.exists_renumbers
    obtain ⟨τ, hτ⟩ := h.exists_symm hg
    obtain ⟨ρ, hρ⟩ := hτ.exists_renumbers
    obtain ⟨limit, hwhole, -⟩ := hrun
    obtain ⟨limit', hwhole', -⟩ := hrun'
    exact Nat.le_antisymm
      (size_set_le_of_renumbers hρ hg'.nonErasing hg.nonErasing hwhole' hwhole hi)
      (size_set_le_of_renumbers hπ hg.nonErasing hg'.nonErasing hwhole hwhole' hi)
  · rw [set_of_size_le (hrun.size_sets.trans_le (Nat.lt_of_not_le hi)),
      set_of_size_le (hrun'.size_sets.trans_le (Nat.lt_of_not_le hi))]

/-- Recognition in another order: a limit stops both runs or none, and what is not stopped has the
same verdict and as many items in each set. -/
theorem recognize_of_renames (h : Grammar.Renames σ g g') (hg : g.WellFormed) (hg' : g'.WellFormed)
    (w : List Char) (limits : Limits) :
    (recognize g w limits).verdict.Alike (recognize g' w limits).verdict ∧
      ((recognize g w limits).verdict.exhausted? = none → ∃ c c',
        (recognize g w limits).chart = some c ∧ (recognize g' w limits).chart = some c' ∧
          c.sets.map (·.size) = c'.sets.map (·.size)) := by
  obtain ⟨maxLength, limit⟩ := limits
  by_cases hlen : w.length ≤ maxLength
  case neg =>
    rw [recognize_of_lt (Nat.lt_of_not_le hlen), recognize_of_lt (Nat.lt_of_not_le hlen)]
    exact ⟨.refl _, nofun⟩
  obtain ⟨run, hrun⟩ := Run.exists_isWhole hg.nonErasing w
  obtain ⟨run', hrun'⟩ := Run.exists_isWhole hg'.nonErasing w
  have hsize := hrun.size_set_eq h hg hg' hrun'
  by_cases hroom : ∀ i, (run.set i).size ≤ limit
  · have hok := hrun.overInput_eq hroom
    have hok' := hrun'.overInput_eq fun i ↦ (hsize i).trans_le (hroom i)
    have haccepts : (Chart.mk g w run.sets).accepts = (Chart.mk g' w run'.sets).accepts := by
      rw [Bool.eq_iff_iff, accepts_iff_member hg.nonErasing hok,
        accepts_iff_member hg'.nonErasing hok', h.member_iff hg]
    have hsizes : run.sets.map (·.size) = run'.sets.map (·.size) := by
      refine Array.ext (by simp [hrun.size_sets, hrun'.size_sets]) fun i hi hi' ↦ ?_
      rw [Array.size_map] at hi hi'
      rw [Array.getElem_map, Array.getElem_map, ← Run.set_eq_getElem hi, ← Run.set_eq_getElem hi',
        hsize i]
    rw [recognize_of_ok hlen hok, recognize_of_ok hlen hok', haccepts]
    exact ⟨.refl _, fun _ ↦ ⟨_, _, rfl, rfl, hsizes⟩⟩
  · obtain ⟨i, hi⟩ := not_forall.1 hroom
    have hfull : limit < (run.set i).size := Nat.lt_of_not_le hi
    obtain ⟨halt, k, hhalt, hcause, -⟩ := hrun.exists_halt hfull
    obtain ⟨halt', k', hhalt', hcause', -⟩ := hrun'.exists_halt (hfull.trans_eq (hsize i).symm)
    rw [recognize_of_error hlen hhalt, recognize_of_error hlen hhalt', hcause, hcause']
    exact ⟨.tooManyItems k k' limit, nofun⟩

end Earley

end ContextFree
