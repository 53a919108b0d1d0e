import ContextFree.NormalForm.Binary
import ContextFree.Proofs.BreadthFirst
import ContextFree.Proofs.Language.Yield

/-!
# What a non-terminal inherits

The unit closure of `A` is what chains of unit productions lead to, however they turn and meet.  So
`A` inherits a right-hand side just if a chain leads from `A` to a non-terminal that has it, and
every derivation from `A` begins with such a chain.
-/

namespace ContextFree

variable {g : Grammar} {a b : NonTerm} {r : List Symbol}

namespace Grammar

/-! ## Chains of unit productions -/

theorem mem_unitTargets : b ∈ g.unitTargets a ↔ ⟨a, [.nonterm b]⟩ ∈ g.productions := by
  simp only [unitTargets, List.mem_filterMap, Production.unit?_eq_some_iff]
  constructor
  · rintro ⟨i, hi, hrhs⟩
    obtain ⟨-, hp, hlhs⟩ := production_of_mem_alternatives hi
    rwa [← hlhs, ← hrhs]
  · intro h
    obtain ⟨i, hi, hp⟩ := exists_mem_alternatives h
    exact ⟨i, hi, by rw [hp]⟩

theorem mem_unitClosure :
    b ∈ g.unitClosure a ↔ Relation.ReflTransGen (fun x y ↦ y ∈ g.unitTargets x) a b :=
  mem_breadthFirst _ _

/-- Without unit productions, nothing is reached. -/
theorem unitClosure_eq_singleton (h : g.unitTargets a = []) : g.unitClosure a = [a] := by
  have hmem : ∀ b, b ∈ g.unitClosure a ↔ b ∈ [a] := by
    intro b
    rw [mem_unitClosure, List.mem_singleton]
    constructor
    · intro hb
      rcases hb.cases_head with rfl | ⟨c, hc, -⟩
      · rfl
      · rw [h] at hc
        cases hc
    · rintro rfl
      exact .refl
  exact List.perm_singleton.1
    ((List.perm_ext_iff_of_nodup (nodup_breadthFirst _ _) (List.nodup_singleton a)).2 hmem)

/-- A chain of unit productions is a derivation. -/
theorem derives_of_mem_unitClosure (h : b ∈ g.unitClosure a) :
    g.Derives [.nonterm a] [.nonterm b] := by
  rw [mem_unitClosure] at h
  induction h with
  | refl => exact .refl _
  | tail _ hstep ih => exact ih.trans (.of_mem (mem_unitTargets.1 hstep))

/-! ## Inherited right-hand sides -/

theorem mem_inherited : r ∈ g.inherited a ↔
    ∃ b ∈ g.unitClosure a, ⟨b, r⟩ ∈ g.productions ∧ ∀ c, r ≠ [.nonterm c] := by
  have hunit : ∀ p : Production, p.unit?.isSome = true ↔ ∃ c, p.rhs = [.nonterm c] := by
    simp [Option.isSome_iff_exists, Production.unit?_eq_some_iff]
  simp only [inherited, List.mem_flatMap, List.mem_filterMap]
  constructor
  · rintro ⟨b, hb, i, hi, h⟩
    obtain ⟨-, hp, rfl⟩ := production_of_mem_alternatives hi
    split at h
    case isTrue => cases h
    case isFalse hne =>
      cases h
      exact ⟨_, hb, hp, fun c hc ↦ hne ((hunit _).2 ⟨c, hc⟩)⟩
  · rintro ⟨b, hb, hp, hne⟩
    obtain ⟨i, hi, heq⟩ := exists_mem_alternatives hp
    refine ⟨b, hb, i, hi, ?_⟩
    rw [heq, if_neg]
    intro hsome
    obtain ⟨c, hc⟩ := (hunit _).1 hsome
    exact hne c hc

/-- The inherited right-hand sides of all non-terminals, in the order in which they are added. -/
def inheritedProductions (g : Grammar) : List Production :=
  g.nonterms.flatMap fun a ↦ (g.inherited a).map (Production.mk a)

theorem mem_inheritedProductions {p : Production} :
    p ∈ g.inheritedProductions ↔ p.lhs.index < g.size ∧ p.rhs ∈ g.inherited p.lhs := by
  obtain ⟨lhs, rhs⟩ := p
  simp [inheritedProductions]

theorem binarization_eq (g : Grammar) : g.binarization =
    g.inheritedProductions.foldl (fun st p ↦ st.add p.lhs p.rhs) ⟨g.names, 0, [], [], []⟩ := by
  simp only [binarization, inheritedProductions, List.foldl_flatMap, List.foldl_map]

/-- A non-terminal derives what it inherits. -/
theorem derives_of_mem_inherited (h : r ∈ g.inherited a) : g.Derives [.nonterm a] r := by
  obtain ⟨b, hb, hp, -⟩ := mem_inherited.1 h
  exact (derives_of_mem_unitClosure hb).trans (.of_mem hp)

/-- A non-terminal inherits what its unit productions lead to. -/
theorem mem_inherited_of_unit (hunit : ⟨a, [.nonterm b]⟩ ∈ g.productions)
    (h : r ∈ g.inherited b) : r ∈ g.inherited a := by
  obtain ⟨c, hc, hp⟩ := mem_inherited.1 h
  exact mem_inherited.2
    ⟨c, mem_unitClosure.2 (.head (mem_unitTargets.2 hunit) (mem_unitClosure.1 hc)), hp⟩

/-- A grammar derives what another one does, if every non-terminal derives by it what it inherits by
the other: the chains of unit productions need no counterpart. -/
theorem Yields.of_inherited {g' : Grammar}
    (hderives : ∀ p ∈ g.productions, ∀ r ∈ g.inherited p.lhs, g'.Derives [.nonterm p.lhs] r)
    {form : List Symbol} {w : List Char} (h : g.Yields form w) : g'.Yields form w := by
  -- a single non-terminal is also known to yield the word by what it inherits
  suffices hboth : g'.Yields form w ∧
      ∀ a, form = [.nonterm a] → ∃ r ∈ g.inherited a, g'.Yields r w from hboth.1
  induction h with
  | nil => exact ⟨.nil, nofun⟩
  | term c _ ih => exact ⟨ih.1.term c, nofun⟩
  | @nonterm p form u v hp _ _ ih ih' =>
    have hinherits : ∃ r ∈ g.inherited p.lhs, g'.Yields r u := by
      by_cases hunit : ∃ b, p.rhs = [.nonterm b]
      · obtain ⟨b, hb⟩ := hunit
        obtain ⟨r, hr, hu⟩ := ih.2 b hb
        exact ⟨r, mem_inherited_of_unit (hb ▸ hp) hr, hu⟩
      · have hself : p.lhs ∈ g.unitClosure p.lhs := mem_unitClosure.2 .refl
        exact ⟨p.rhs, mem_inherited.2 ⟨p.lhs, hself, hp, fun c hc ↦ hunit ⟨c, hc⟩⟩, ih.1⟩
    obtain ⟨r, hr, hu⟩ := hinherits
    refine ⟨(hu.of_derives (hderives p hp r hr)).append ih'.1, ?_⟩
    intro a heq
    obtain ⟨ha, rfl⟩ := List.cons.inj heq
    cases ha
    obtain rfl := yields_nil_iff.1 ih'.1
    exact ⟨r, hr, by rwa [List.append_nil]⟩

end Grammar

end ContextFree
