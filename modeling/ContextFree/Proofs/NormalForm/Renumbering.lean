import ContextFree.Proofs.NormalForm.Language
import ContextFree.Proofs.NormalForm.Roles
import Mathlib.Data.List.Perm.Subperm

/-!
# The binary form of a renumbered grammar

A grammar in another order is brought into binary form in another order: fresh non-terminals get
other numbers and names, and terminals are lifted at other moments.  But the roles are the same, up
to the numbers of the grammar.  So the binary forms of renumbered grammars are renumbered forms of
each other (`Grammar.Renames.exists_binarize`).
-/

namespace ContextFree

open Role

variable {g g' : Grammar} {σ : NonTerm → NonTerm}

namespace Grammar

/-! ## Roles are given once -/

/-- No two non-terminals of a binary form have the same role. -/
theorem HasRoles.nodup {ν : NonTerm → Role} {lifted : List Char} {dealt : List Production}
    (h : g.HasRoles ν lifted dealt) : (g.binarize.nonterms.map ν).Nodup := by
  rw [h.nonterms.nodup_iff]
  have horiginal : (g.nonterms.map Role.original).Nodup :=
    g.nodup_nonterms.map fun _ _ ↦ Role.original.inj
  have hlifted : (lifted.map Role.lifted).Nodup := h.lifted_nodup.map fun _ _ ↦ Role.lifted.inj
  have hhelpers : (dealt.flatMap helpersOf).Nodup := by
    refine List.nodup_flatMap.2 ⟨fun p _ ↦ nodup_helpers p _, h.dealt_nodup.imp fun hne ↦ ?_⟩
    intro r hr hr'
    obtain ⟨_, -, -, rfl⟩ := mem_helpers.1 hr
    obtain ⟨_, -, -, heq⟩ := mem_helpers.1 hr'
    exact hne (Role.rest.inj heq).1
  have hrest : ∀ r ∈ dealt.flatMap helpersOf, ∃ p n, r = .rest p n := by
    intro r hr
    obtain ⟨p, -, hr⟩ := List.mem_flatMap.1 hr
    obtain ⟨n, -, -, rfl⟩ := mem_helpers.1 hr
    exact ⟨p, n, rfl⟩
  refine List.nodup_append'.2 ⟨horiginal, List.nodup_append'.2 ⟨hlifted, hhelpers, ?_⟩, ?_⟩
  · intro r hr hr'
    obtain ⟨c, -, rfl⟩ := List.mem_map.1 hr
    obtain ⟨_, _, heq⟩ := hrest _ hr'
    cases heq
  · intro r hr hr'
    obtain ⟨a, -, rfl⟩ := List.mem_map.1 hr
    rcases List.mem_append.1 hr' with hr' | hr'
    · obtain ⟨c, -, heq⟩ := List.mem_map.1 hr'
      cases heq
    · obtain ⟨_, _, heq⟩ := hrest _ hr'
      cases heq

/-! ## What is inherited -/

namespace Renames

theorem mem_unitClosure (h : Renames σ g g') {a b : NonTerm} (hb : b ∈ g.unitClosure a) :
    σ b ∈ g'.unitClosure (σ a) := by
  rw [Grammar.mem_unitClosure] at hb ⊢
  exact hb.lift σ fun x y hxy ↦ mem_unitTargets.2 (h.rename_mem (mem_unitTargets.1 hxy))

theorem mem_inherited (h : Renames σ g g') {a : NonTerm} {rhs : List Symbol}
    (hrhs : rhs ∈ g.inherited a) : rhs.map (·.rename σ) ∈ g'.inherited (σ a) := by
  obtain ⟨b, hb, hp, hunit⟩ := Grammar.mem_inherited.1 hrhs
  refine Grammar.mem_inherited.2 ⟨σ b, h.mem_unitClosure hb, h.rename_mem hp, fun c hc ↦ ?_⟩
  obtain ⟨s, rfl⟩ : ∃ s, rhs = [s] := List.length_eq_one_iff.1 (by simpa using congrArg List.length hc)
  cases s with
  | term d => simp at hc
  | nonterm b => exact hunit b rfl

section HasRoles

variable {ν ν' : NonTerm → Role} {lifted lifted' : List Char} {dealt dealt' : List Production}

theorem subperm_dealt (h : Renames σ g g') (hg : g.WellFormed) (hν : g.HasRoles ν lifted dealt)
    (hν' : g'.HasRoles ν' lifted' dealt') : (dealt.map (·.rename σ)).Subperm dealt' := by
  refine List.subperm_of_subset (hν.dealt_nodup.map_on fun p hp q hq heq ↦ ?_) fun p' hp' ↦ ?_
  · obtain ⟨hlhs, hrhs⟩ := (hν.mem_dealt p).1 hp
    obtain ⟨hlhs', hrhs'⟩ := (hν.mem_dealt q).1 hq
    obtain ⟨heq₁, heq₂⟩ := Production.mk.inj heq
    exact congrArg₂ Production.mk (h.injective hlhs hlhs' heq₁)
      (h.map_rename_injective (owns_of_mem_inherited hg hrhs) (owns_of_mem_inherited hg hrhs') heq₂)
  · obtain ⟨p, hp, rfl⟩ := List.mem_map.1 hp'
    obtain ⟨hlhs, hrhs⟩ := (hν.mem_dealt p).1 hp
    exact (hν'.mem_dealt _).2 ⟨h.index_lt hlhs, h.mem_inherited hrhs⟩

theorem subset_lifted (h : Renames σ g g') (hν : g.HasRoles ν lifted dealt)
    (hν' : g'.HasRoles ν' lifted' dealt') : lifted ⊆ lifted' := by
  intro c hc
  obtain ⟨p, hp, hlength, hmem⟩ := (hν.mem_lifted c).1 hc
  obtain ⟨hlhs, hrhs⟩ := (hν.mem_dealt p).1 hp
  refine (hν'.mem_lifted c).2 ⟨p.rename σ, (hν'.mem_dealt _).2
    ⟨h.index_lt hlhs, h.mem_inherited hrhs⟩, ?_, List.mem_map_of_mem hmem⟩
  rwa [Production.rename, List.length_map]

/-- The same productions are dealt with, and the same terminals are lifted. -/
theorem perm_dealt_and_lifted (h : Renames σ g g') (hg : g.WellFormed) (hg' : g'.WellFormed)
    (hν : g.HasRoles ν lifted dealt) (hν' : g'.HasRoles ν' lifted' dealt') :
    (dealt.map (·.rename σ)).Perm dealt' ∧ lifted.Perm lifted' := by
  obtain ⟨τ, hτ⟩ := h.exists_symm hg
  constructor
  · refine (h.subperm_dealt hg hν hν').perm_of_length_le ?_
    have hle := (hτ.subperm_dealt hg' hν' hν).length_le
    rwa [List.length_map] at hle ⊢
  · exact (List.perm_ext_iff_of_nodup hν.lifted_nodup hν'.lifted_nodup).2 fun c ↦
      ⟨fun hc ↦ h.subset_lifted hν hν' hc, fun hc ↦ hτ.subset_lifted hν' hν hc⟩

end HasRoles

/-- The binary forms of renumbered grammars are renumbered forms of each other. -/
theorem exists_binarize (h : Renames σ g g') (hg : g.WellFormed) (hg' : g'.WellFormed) :
    ∃ τ, Renames τ g.binarize g'.binarize := by
  obtain ⟨ν, lifted, dealt, hν⟩ := exists_hasRoles hg
  obtain ⟨ν', lifted', dealt', hν'⟩ := exists_hasRoles hg'
  obtain ⟨hdealt, hlifted⟩ := h.perm_dealt_and_lifted hg hg' hν hν'
  refine exists_renames_of_spelling (Role.rename σ ∘ ν) ν' (wellFormed_binarize hg') ?_ ?_ ?_ ?_
  · intro a b ha hb heq
    exact List.inj_on_of_nodup_map hν'.nodup (mem_nonterms.2 ha) (mem_nonterms.2 hb) heq
  · change Role.rename σ (ν g.start) = ν' g'.start
    rw [hν.original _ hg.start_lt, hν'.original _ hg'.start_lt, ← h.start]
    rfl
  · calc
      g.binarize.nonterms.map (Role.rename σ ∘ ν)
      _ = (g.binarize.nonterms.map ν).map (Role.rename σ) := List.map_map.symm
      List.Perm _ ((g.nonterms.map Role.original ++
          (lifted.map Role.lifted ++ dealt.flatMap helpersOf)).map (Role.rename σ)) :=
        hν.nonterms.map _
      _ = (g.nonterms.map σ).map Role.original ++
          (lifted.map Role.lifted ++ (dealt.map (·.rename σ)).flatMap helpersOf) := by
        simp [List.map_flatMap, List.flatMap_map, map_helpersOf, Function.comp_def, Role.rename]
      List.Perm _ (g'.nonterms.map Role.original ++
          (lifted'.map Role.lifted ++ dealt'.flatMap helpersOf)) :=
        (h.nonterms.map _).append ((hlifted.map _).append (hdealt.flatMap_right _))
      List.Perm _ (g'.binarize.nonterms.map ν') := hν'.nonterms.symm
  · calc
      g.binarize.productions.map (·.spell (Role.rename σ ∘ ν))
      _ = (g.binarize.productions.map (·.spell ν)).map (Spelled.map (Role.rename σ)) := by
        simp [Production.map_spell]
      List.Perm _ ((lifted.map liftedRule ++ dealt.flatMap rulesOf).map
          (Spelled.map (Role.rename σ))) := hν.productions.map _
      _ = lifted.map liftedRule ++ (dealt.map (·.rename σ)).flatMap rulesOf := by
        simp [List.map_flatMap, List.flatMap_map, map_rulesOf, Function.comp_def, liftedRule,
          Spelled.map, Role.rename]
      List.Perm _ (lifted'.map liftedRule ++ dealt'.flatMap rulesOf) :=
        (hlifted.map _).append (hdealt.flatMap_right _)
      List.Perm _ (g'.binarize.productions.map (·.spell ν')) := hν'.productions.symm

end Renames

end Grammar

end ContextFree
