import ContextFree.Language.Derivation
import ContextFree.Proofs.Cyk.BinaryPart
import Mathlib.Data.List.Nodup
import Mathlib.Data.Set.Function

/-!
# Grammars that differ in their numbers only

Non-terminals and productions are known by their places, so a grammar that lists the same things in
another order has other numbers.  `Renames σ g g'` says that `g'` is `g` with the non-terminals
renumbered by `σ`, and with the productions in any order.  Such grammars derive the same forms, up
to the numbers, and have the same members.

Labels make the numbers go away: two grammars whose productions read the same, when every
non-terminal is written as its label, are renumbered forms of each other
(`exists_renames_of_spelling`).  So renumbering goes both ways (`Renames.exists_symm`).
-/

namespace ContextFree

/-! ## Labels in the places of numbers -/

/-- A production with labels in the places of non-terminals. -/
abbrev Spelled (β : Type) := β × List (Char ⊕ β)

section Spelling

variable {β γ : Type}

/-- The symbol with the label of its non-terminal. -/
def Symbol.spell (ν : NonTerm → β) : Symbol → Char ⊕ β
  | .term c => .inl c
  | .nonterm a => .inr (ν a)

/-- The symbol with another number for its non-terminal. -/
def Symbol.rename (σ : NonTerm → NonTerm) : Symbol → Symbol
  | .term c => .term c
  | .nonterm a => .nonterm (σ a)

/-- The production with the labels of its non-terminals. -/
def Production.spell (ν : NonTerm → β) (p : Production) : Spelled β :=
  (ν p.lhs, p.rhs.map (·.spell ν))

/-- The production with other numbers for its non-terminals. -/
def Production.rename (σ : NonTerm → NonTerm) (p : Production) : Production :=
  ⟨σ p.lhs, p.rhs.map (·.rename σ)⟩

/-- The production with other labels. -/
def Spelled.map (f : β → γ) (q : Spelled β) : Spelled γ := (f q.1, q.2.map (Sum.map id f))

/-- The production with numbers for its labels. -/
def Spelled.production (ι : β → NonTerm) (q : Spelled β) : Production :=
  ⟨ι q.1, q.2.map (Sum.elim .term (.nonterm ∘ ι))⟩

@[simp] theorem Symbol.spell_term (ν : NonTerm → β) (c : Char) :
    (Symbol.term c).spell ν = .inl c := rfl

@[simp] theorem Symbol.spell_nonterm (ν : NonTerm → β) (a : NonTerm) :
    (Symbol.nonterm a).spell ν = .inr (ν a) := rfl

@[simp] theorem Symbol.rename_term (σ : NonTerm → NonTerm) (c : Char) :
    (Symbol.term c).rename σ = .term c := rfl

@[simp] theorem Symbol.rename_nonterm (σ : NonTerm → NonTerm) (a : NonTerm) :
    (Symbol.nonterm a).rename σ = .nonterm (σ a) := rfl

theorem Symbol.map_spell (f : β → γ) (ν : NonTerm → β) (s : Symbol) :
    Sum.map id f (s.spell ν) = s.spell (f ∘ ν) := by cases s <;> rfl

theorem Symbol.spell_rename (ν : NonTerm → β) (σ : NonTerm → NonTerm) (s : Symbol) :
    (s.rename σ).spell ν = s.spell (ν ∘ σ) := by cases s <;> rfl

theorem Symbol.elim_spell (ι : β → NonTerm) (ν : NonTerm → β) (s : Symbol) :
    Sum.elim Symbol.term (Symbol.nonterm ∘ ι) (s.spell ν) = s.rename (ι ∘ ν) := by cases s <;> rfl

theorem Production.map_spell (f : β → γ) (ν : NonTerm → β) (p : Production) :
    (p.spell ν).map f = p.spell (f ∘ ν) := by
  simp [Production.spell, Spelled.map, Symbol.map_spell]

theorem Production.spell_rename (ν : NonTerm → β) (σ : NonTerm → NonTerm) (p : Production) :
    (p.rename σ).spell ν = p.spell (ν ∘ σ) := by
  simp [Production.spell, Production.rename, Symbol.spell_rename]

theorem Production.production_spell (ι : β → NonTerm) (ν : NonTerm → β) (p : Production) :
    (p.spell ν).production ι = p.rename (ι ∘ ν) := by
  simp [Production.spell, Production.rename, Spelled.production, Symbol.elim_spell]

end Spelling

variable {g g' : Grammar} {σ : NonTerm → NonTerm}

/-! ## What is renamed to itself -/

theorem map_rename_map_term (σ : NonTerm → NonTerm) (w : List Char) :
    (w.map Symbol.term).map (·.rename σ) = w.map Symbol.term := by
  rw [List.map_map]
  rfl

/-- A form is what it was, if its non-terminals keep their numbers. -/
theorem map_rename_eq_self {form : List Symbol} (hform : ∀ s ∈ form, g.Owns s)
    (h : ∀ a : NonTerm, a.index < g.size → σ a = a) : form.map (·.rename σ) = form :=
  List.map_congr_left (fun s hs ↦ by
    cases s with
    | term c => rfl
    | nonterm a => exact congrArg Symbol.nonterm (h a (hform _ hs a rfl))) |>.trans (List.map_id _)

theorem Production.rename_eq_self (hg : g.WellFormed)
    (h : ∀ a : NonTerm, a.index < g.size → σ a = a) {p : Production} (hp : p ∈ g.productions) :
    p.rename σ = p := by
  rw [rename, h _ (hg.lhs_lt p hp), map_rename_eq_self (hg.rhs_owned p hp) h]

@[simp] theorem Production.isBinary_rename (p : Production) : (p.rename σ).isBinary = p.isBinary := by
  obtain ⟨lhs, rhs⟩ := p
  rw [Bool.eq_iff_iff, isBinary_iff, isBinary_iff]
  match rhs with
  | [] => simp [rename]
  | [s] => cases s <;> simp [rename]
  | [s, s'] => cases s <;> cases s' <;> simp [rename]
  | s :: s' :: s'' :: rest => simp [rename]

namespace Grammar

/-! ## Renumbering -/

theorem nodup_nonterms (g : Grammar) : g.nonterms.Nodup :=
  List.nodup_range.map fun _ _ h ↦ congrArg NonTerm.index h

/-- The second grammar is the first one in another order, and `σ` gives the new numbers of the
non-terminals.  Names do not count. -/
structure Renames (σ : NonTerm → NonTerm) (g g' : Grammar) : Prop where
  start : σ g.start = g'.start
  nonterms : (g.nonterms.map σ).Perm g'.nonterms
  productions : (g.productions.map (·.rename σ)).Perm g'.productions

/-- Grammars that read the same, when labels stand in the places of numbers, are renumbered forms of
each other.  Labels tell the non-terminals of the second grammar apart, so a label gives back the
number. -/
theorem exists_renames_of_spelling {β : Type} (ν ν' : NonTerm → β) (hg' : g'.WellFormed)
    (hinj : ∀ a b : NonTerm, a.index < g'.size → b.index < g'.size → ν' a = ν' b → a = b)
    (hstart : ν g.start = ν' g'.start)
    (hnonterms : (g.nonterms.map ν).Perm (g'.nonterms.map ν'))
    (hproductions : (g.productions.map (·.spell ν)).Perm (g'.productions.map (·.spell ν'))) :
    ∃ σ, Renames σ g g' := by
  have : Nonempty NonTerm := ⟨g.start⟩
  let ι := Function.invFunOn ν' {a | a.index < g'.size}
  have hι : ∀ a : NonTerm, a.index < g'.size → (ι ∘ ν') a = a :=
    Set.InjOn.leftInvOn_invFunOn fun a ha b hb ↦ hinj a b ha hb
  refine ⟨ι ∘ ν, ?_, ?_, ?_⟩
  · rw [Function.comp_apply, hstart]
    exact hι _ hg'.start_lt
  · have hself : g'.nonterms.map (ι ∘ ν') = g'.nonterms :=
      (List.map_congr_left fun a ha ↦ hι a (mem_nonterms.1 ha)).trans (List.map_id _)
    have hperm := hnonterms.map ι
    rwa [List.map_map, List.map_map, hself] at hperm
  · have hself : g'.productions.map (·.rename (ι ∘ ν')) = g'.productions :=
      (List.map_congr_left fun p hp ↦ Production.rename_eq_self hg' hι hp).trans (List.map_id _)
    have hperm := hproductions.map (Spelled.production ι)
    simp only [List.map_map, Function.comp_def, Production.production_spell] at hperm hself
    rwa [hself] at hperm

namespace Renames

variable {a b : NonTerm}

theorem index_lt (h : Renames σ g g') (ha : a.index < g.size) : (σ a).index < g'.size :=
  mem_nonterms.1 (h.nonterms.mem_iff.1 (List.mem_map_of_mem (mem_nonterms.2 ha)))

/-- The old numbers are told apart by the new ones. -/
theorem injective (h : Renames σ g g') (ha : a.index < g.size) (hb : b.index < g.size)
    (heq : σ a = σ b) : a = b :=
  List.inj_on_of_nodup_map (h.nonterms.nodup_iff.2 g'.nodup_nonterms) (mem_nonterms.2 ha)
    (mem_nonterms.2 hb) heq

theorem size_eq (h : Renames σ g g') : g'.size = g.size := by
  simpa only [Grammar.nonterms, List.length_map, List.length_range] using h.nonterms.length_eq.symm

/-- What is renumbered can be numbered back. -/
theorem exists_symm (h : Renames σ g g') (hg : g.WellFormed) : ∃ τ, Renames τ g' g := by
  refine exists_renames_of_spelling id σ hg (fun _ _ ↦ h.injective) h.start.symm ?_ ?_
  · rw [List.map_id]
    exact h.nonterms.symm
  · have hperm := (h.productions.map (Production.spell id)).symm
    rw [List.map_map] at hperm
    exact hperm.trans (.of_eq (List.map_congr_left fun p _ ↦ Production.spell_rename id σ p))

/-- Different forms of a grammar stay different. -/
theorem map_rename_injective (h : Renames σ g g') {form form' : List Symbol}
    (hform : ∀ s ∈ form, g.Owns s) (hform' : ∀ s ∈ form', g.Owns s)
    (heq : form.map (·.rename σ) = form'.map (·.rename σ)) : form = form' := by
  induction form generalizing form' with
  | nil => simpa using heq.symm
  | cons s form ih =>
    cases form' with
    | nil => simp at heq
    | cons s' form' =>
      obtain ⟨hs, hrest⟩ := List.cons.inj heq
      rw [ih (fun s hs ↦ hform s (.tail _ hs)) (fun s hs ↦ hform' s (.tail _ hs)) hrest]
      cases s with
      | term c => cases s' <;> simp_all
      | nonterm a =>
        cases s' with
        | term c => cases hs
        | nonterm b =>
          have hab : σ a = σ b := by simpa using hs
          rw [h.injective (hform _ (.head _) a rfl) (hform' _ (.head _) b rfl) hab]

theorem rename_mem (h : Renames σ g g') {p : Production} (hp : p ∈ g.productions) :
    p.rename σ ∈ g'.productions :=
  h.productions.mem_iff.1 (List.mem_map_of_mem hp)

/-! ## Languages -/

theorem derives (h : Renames σ g g') {form result : List Symbol} (hd : g.Derives form result) :
    g'.Derives (form.map (·.rename σ)) (result.map (·.rename σ)) := by
  induction hd with
  | refl => exact .refl _
  | tail _ step ih =>
    obtain ⟨hp, front, back⟩ := step
    refine ih.tail ?_
    simpa [Production.rename] using Rewrites.intro (h.rename_mem hp)
      (front.map (·.rename σ)) (back.map (·.rename σ))

theorem member (h : Renames σ g g') {w : List Char} (hw : g.Member w) : g'.Member w := by
  have hd := h.derives hw
  rwa [map_rename_map_term, List.map_singleton, Symbol.rename_nonterm, h.start] at hd

/-- The order does not matter for membership. -/
theorem member_iff (h : Renames σ g g') (hg : g.WellFormed) {w : List Char} :
    g'.Member w ↔ g.Member w := by
  obtain ⟨τ, hτ⟩ := h.exists_symm hg
  exact ⟨hτ.member, h.member⟩

theorem binaryPart (h : Renames σ g g') : Renames σ g.binaryPart g'.binaryPart where
  start := h.start
  nonterms := h.nonterms
  productions := by
    have hperm := h.productions.filter (·.isBinary)
    rw [List.filter_map] at hperm
    simpa only [Grammar.binaryPart, Function.comp_def, Production.isBinary_rename] using hperm

end Renames

theorem WellFormed.binaryPart (hg : g.WellFormed) : g.binaryPart.WellFormed where
  names_nodup := hg.names_nodup
  start_lt := hg.start_lt
  lhs_lt p hp := hg.lhs_lt p (mem_binaryPart.1 hp).1
  rhs_ne_nil p hp := hg.rhs_ne_nil p (mem_binaryPart.1 hp).1
  rhs_owned p hp := hg.rhs_owned p (mem_binaryPart.1 hp).1

end Grammar

end ContextFree
