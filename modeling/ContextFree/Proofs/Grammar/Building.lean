import ContextFree.Proofs.Grammar.Obtainable
import Mathlib.Data.List.Induction
import Mathlib.Data.List.Nodup

/-!
# Building a grammar from its own productions

A builder that holds the productions of a grammar, with the names written out, gives the grammar
back (`Builder.build_eq_ok`), as long as the names that it defines come in the order of their
numbers.  After the first two phases the table lists the defined names, each at its first
occurrence.  That is the whole table of the grammar, so from then on nothing new is numbered.
-/

namespace ContextFree

/-! ## First occurrences -/

section Lists

variable {α β : Type _} [BEq α] [LawfulBEq α] [BEq β] [LawfulBEq β]

/-- Without repetitions there is nothing to erase. -/
theorem eraseDups_eq_self {l : List α} (h : l.Nodup) : l.eraseDups = l := by
  induction l with
  | nil => rfl
  | cons a l ih =>
    obtain ⟨ha, hl⟩ := List.nodup_cons.1 h
    have hfilter : l.filter (fun b ↦ !b == a) = l :=
      List.filter_eq_self.2 fun b hb ↦ by
        simpa using fun heq : b = a ↦ ha (heq ▸ hb)
    rw [List.eraseDups_cons, hfilter, ih hl]

omit [LawfulBEq α] in
/-- What erasing repetitions leaves comes in the order in which it was. -/
theorem eraseDups_sublist (l : List α) : l.eraseDups.Sublist l := by
  induction hn : l.length using Nat.strongRecOn generalizing l with
  | ind n ih =>
    cases l with
    | nil => exact .slnil
    | cons a l =>
      rw [List.eraseDups_cons]
      apply List.Sublist.cons_cons
      refine (ih _ ?_ _ rfl).trans List.filter_sublist
      exact hn ▸ Nat.lt_succ_of_le (List.length_filter_le _ _)

/-- What stands in front already is erased behind. -/
theorem eraseDups_append_of_subset {l l' : List α} (h : l' ⊆ l) :
    (l ++ l').eraseDups = l.eraseDups := by
  have hnil : l'.removeAll l = [] := by simpa [List.removeAll] using fun a ha ↦ h ha
  rw [List.eraseDups_append, hnil, List.eraseDups_nil, List.append_nil]

/-- Erasing commutes with a map that keeps the elements of the list apart. -/
theorem eraseDups_map {f : α → β} {l : List α} (hf : ∀ a ∈ l, ∀ b ∈ l, f a = f b → a = b) :
    (l.map f).eraseDups = l.eraseDups.map f := by
  induction hn : l.length using Nat.strongRecOn generalizing l with
  | ind n ih =>
    cases l with
    | nil => rfl
    | cons a l =>
      have hfilter : (l.map f).filter (fun b ↦ !b == f a) = (l.filter (fun b ↦ !b == a)).map f := by
        rw [List.filter_map]
        refine congrArg _ (List.filter_congr fun b hb ↦ ?_)
        rw [Function.comp_apply, Bool.not_inj_iff, Bool.eq_iff_iff, beq_iff_eq, beq_iff_eq]
        exact ⟨hf b (.tail _ hb) a (.head _), congrArg f⟩
      have hlength : (l.filter (fun b ↦ !b == a)).length < n := by
        have hle := List.length_filter_le (fun b ↦ !b == a) l
        simp only [List.length_cons] at hn
        omega
      have hrest := ih _ hlength (l := l.filter (fun b ↦ !b == a))
        (fun b hb c hc ↦
          hf b (.tail _ (List.mem_of_mem_filter hb)) c (.tail _ (List.mem_of_mem_filter hc))) rfl
      rw [List.map_cons, List.eraseDups_cons, List.eraseDups_cons, List.map_cons, hfilter, hrest]

end Lists

/-! ## What steps collect -/

namespace BuilderStep

/-- The start name that a step gives. -/
def startName? : BuilderStep → Option String
  | .start name => some name
  | _ => none

/-- The name that a step declares. -/
def declaredName? : BuilderStep → Option String
  | .nonterm name => some name
  | _ => none

/-- The rule that a step adds. -/
def rule? : BuilderStep → Option Rule
  | .rule lhs rhs => some ⟨lhs, .chars rhs⟩
  | .production lhs rhs => some ⟨lhs, .symbols rhs⟩
  | _ => none

end BuilderStep

/-- Steps of different kinds do not meet: each list takes what is its own, in order. -/
theorem Builder.ofSteps_eq (steps : List BuilderStep) :
    Builder.ofSteps steps = ⟨(steps.filterMap (·.startName?)).getLast?,
      steps.filterMap (·.declaredName?), steps.filterMap (·.rule?)⟩ := by
  induction steps using List.reverseRecOn with
  | nil => rfl
  | append_singleton steps s ih =>
    rw [ofSteps] at ih ⊢
    rw [List.foldl_append, ih]
    cases s <;> simp [step, BuilderStep.startName?, BuilderStep.declaredName?, BuilderStep.rule?]

theorem Builder.start_ofSteps (steps : List BuilderStep) :
    (Builder.ofSteps steps).start = (steps.filterMap (·.startName?)).getLast? := by
  rw [ofSteps_eq]

theorem Builder.declared_ofSteps (steps : List BuilderStep) :
    (Builder.ofSteps steps).declared = steps.filterMap (·.declaredName?) := by rw [ofSteps_eq]

theorem Builder.rules_ofSteps (steps : List BuilderStep) :
    (Builder.ofSteps steps).rules = steps.filterMap (·.rule?) := by rw [ofSteps_eq]

/-! ## Tables -/

namespace NameTable

/-- The table after asking for each name of a list. -/
def internAll (names : List String) (t : NameTable) : NameTable :=
  names.foldl (fun t name ↦ (t.intern name).2) t

theorem internAll_append (names names' : List String) (t : NameTable) :
    internAll (names ++ names') t = internAll names' (internAll names t) :=
  List.foldl_append

/-- A new table lists the names at their first occurrences. -/
theorem names_internAll (names : List String) : (internAll names {}).names = names.eraseDups := by
  induction names using List.reverseRecOn with
  | nil => rfl
  | append_singleton names name ih =>
    rw [internAll_append]
    change (intern name (internAll names {})).2.names = _
    by_cases hmem : name ∈ names
    · have hold : name ∈ (internAll names {}).names := ih ▸ List.mem_eraseDups.2 hmem
      obtain ⟨i, hi⟩ := Option.isSome_iff_exists.1 (List.isSome_idxOf?.2 hold)
      rw [intern_of_idxOf? hi, ih, eraseDups_append_of_subset (by simpa using hmem)]
    · have hnew : name ∉ (internAll names {}).names := fun h ↦ hmem (List.mem_eraseDups.1 (ih ▸ h))
      rw [intern_of_notMem hnew, ih, List.eraseDups_append]
      simp [List.removeAll, hmem, List.eraseDups_cons]

end NameTable

namespace Grammar

variable {g : Grammar}

theorem name_mem {a : NonTerm} (h : a.index < g.size) : g.name a ∈ g.names := by
  rw [name_of_lt h]
  exact List.getElem_mem h

theorem map_name_nonterms (g : Grammar) : g.nonterms.map g.name = g.names := by
  rw [nonterms, List.map_map]
  refine List.ext_getElem (by simp [size]) fun i _ hi ↦ ?_
  rw [List.getElem_map, List.getElem_range]
  exact name_of_lt hi

/-- The name of a non-terminal is found at its number. -/
theorem intern_name (hg : g.WellFormed) {a : NonTerm} (h : a.index < g.size) :
    NameTable.intern (g.name a) ⟨g.names⟩ = (a, ⟨g.names⟩) := by
  refine NameTable.intern_of_idxOf? (List.idxOf?_eq_some_iff.2 ⟨h, (name_of_lt h).symm, ?_⟩)
  intro j hj heq
  exact Nat.ne_of_lt hj (hg.names_nodup.getElem_inj_iff.1 (heq.trans (name_of_lt h)))

theorem name_injective (hg : g.WellFormed) {a b : NonTerm} (ha : a.index < g.size)
    (hb : b.index < g.size) (h : g.name a = g.name b) : a = b := by
  have hintern := intern_name hg hb
  rw [← h, intern_name hg ha] at hintern
  exact congrArg Prod.fst hintern

/-! ## Rules from productions -/

/-- The word or the character that stands for a symbol. -/
def rawSymbol (g : Grammar) : Symbol → RawSymbol
  | .term c => .term c
  | .nonterm a => .word (g.name a)

/-- The rule that a production was resolved from, with its names as words. -/
def rule (g : Grammar) (p : Production) : Rule := ⟨g.name p.lhs, .symbols (p.rhs.map g.rawSymbol)⟩

end Grammar

namespace Builder

namespace Numbering

variable {α β : Type} {t t' : NameTable}

/-- A computation goes on from where the one before it stopped. -/
theorem bind_apply {x : Numbering α} {f : α → Numbering β} {a : α} (h : x t = .ok (a, t')) :
    (x >>= f) t = f a t' := by
  change Except.bind (x t) _ = _
  rw [h]
  rfl

/-- Where no element changes the table, the results are collected. -/
theorem mapM_apply {f : α → Numbering β} {k : α → β} {l : List α}
    (h : ∀ a ∈ l, f a t = .ok (k a, t)) : l.mapM f t = .ok (l.map k, t) := by
  induction l with
  | nil => rfl
  | cons a l ih =>
    rw [List.mapM_cons, bind_apply (h a (.head _)), bind_apply (ih fun b hb ↦ h b (.tail _ hb))]
    rfl

end Numbering

open Builder.Numbering

variable {g : Grammar}

/-- Names that are not empty are numbered in their order. -/
theorem forM_declare {α : Type} (error : GrammarError) (name : α → String) {l : List α}
    (h : ∀ a ∈ l, name a ≠ "") (t : NameTable) :
    l.forM (declare error ∘ name) t = .ok ((), t.internAll (l.map name)) := by
  induction l generalizing t with
  | nil => rfl
  | cons a l ih =>
    have hdeclare : declare error (name a) t = .ok ((), (t.intern (name a)).2) := by
      rw [declare, if_neg (h a (.head _))]
      rfl
    exact (bind_apply hdeclare).trans (ih (fun b hb ↦ h b (.tail _ hb)) _)

/-- The first phase, where no declared name is empty. -/
theorem forM_declared {b : Builder} (h : ∀ name ∈ b.declared, name ≠ "") :
    b.declared.forM (declare .emptyName) {} = .ok ((), NameTable.internAll b.declared {}) := by
  have hforM := forM_declare .emptyName id h {}
  rwa [Function.comp_id, List.map_id] at hforM

/-- The second phase, where no left-hand side is empty. -/
theorem forM_lhs {b : Builder} (h : ∀ r ∈ b.rules, r.lhs ≠ "") (t : NameTable) :
    b.rules.forM (declare .emptyLhs ·.lhs) t = .ok ((), t.internAll (b.rules.map (·.lhs))) :=
  forM_declare .emptyLhs Rule.lhs h t

theorem number_name (hg : g.WellFormed) {a : NonTerm} (h : a.index < g.size) :
    number (g.name a) ⟨g.names⟩ = .ok (a, ⟨g.names⟩) :=
  congrArg Except.ok (Grammar.intern_name hg h)

theorem resolveSymbol_rawSymbol (hg : g.WellFormed) {defined : List String}
    (hdefined : ∀ name ∈ g.names, name ∈ defined) {s : Symbol} (hs : g.Owns s) :
    resolveSymbol defined (g.rawSymbol s) ⟨g.names⟩ = .ok ([s], ⟨g.names⟩) := by
  cases s with
  | term c => rfl
  | nonterm a =>
    have hlt : a.index < g.size := hs a rfl
    rw [Grammar.rawSymbol, resolveSymbol, if_pos (hdefined _ (Grammar.name_mem hlt)),
      bind_apply (number_name hg hlt)]
    rfl

theorem resolveRule_rule (hg : g.WellFormed) {defined : List String}
    (hdefined : ∀ name ∈ g.names, name ∈ defined) {p : Production} (hp : p ∈ g.productions) :
    resolveRule defined (g.rule p) ⟨g.names⟩ = .ok (p, ⟨g.names⟩) := by
  have hrhs : (g.rule p).rhs.raw.mapM (resolveSymbol defined) ⟨g.names⟩ =
      .ok (p.rhs.map ([·]), ⟨g.names⟩) := by
    rw [Grammar.rule, RawRhs.raw, List.mapM_map]
    exact mapM_apply fun s hs ↦ resolveSymbol_rawSymbol hg hdefined (hg.rhs_owned p hp s hs)
  have hflatten : (p.rhs.map ([·])).flatten = p.rhs := List.flatMap_singleton' p.rhs
  rw [resolveRule_eq]
  refine (bind_apply (number_name hg (hg.lhs_lt p hp))).trans ?_
  rw [bind_apply hrhs, hflatten, if_neg (hg.rhs_ne_nil p hp)]
  rfl

/-- A builder with the productions of a grammar gives the grammar, if its start name is that of the
grammar, and its defined names first occur in the order of their numbers. -/
theorem build_eq_ok (hg : g.WellFormed) (hnames : "" ∉ g.names) {b : Builder}
    (hrules : b.rules = g.productions.map g.rule)
    (hstart : b.start.getD Grammar.defaultStart = g.name g.start)
    (hdefined : b.defined.eraseDups = g.names) : b.build = .ok g := by
  have hmem : ∀ name, name ∈ b.defined ↔ name ∈ g.names := fun name ↦ by
    rw [← hdefined, List.mem_eraseDups]
  have hne : ∀ name ∈ b.defined, name ≠ "" := fun name h heq ↦
    hnames (heq ▸ (hmem name).1 h)
  have htable : ((NameTable.internAll b.declared {}).internAll (b.rules.map (·.lhs))) =
      ⟨g.names⟩ := by
    rw [← NameTable.internAll_append, NameTable.mk.injEq]
    exact (NameTable.names_internAll b.defined).trans hdefined
  have hdeclared := forM_declared fun name h ↦ hne name (List.mem_append_left _ h)
  have hlhs : b.rules.forM (declare .emptyLhs ·.lhs) (NameTable.internAll b.declared {}) =
      .ok ((), ⟨g.names⟩) := by
    rw [← htable]
    exact forM_lhs (fun r h ↦ hne r.lhs (List.mem_append_right _ (List.mem_map_of_mem h))) _
  have hproductions : b.rules.mapM (resolveRule b.defined) ⟨g.names⟩ =
      .ok (g.productions, ⟨g.names⟩) := by
    have hmapM : (g.productions.map g.rule).mapM (resolveRule b.defined) ⟨g.names⟩ =
        .ok (g.productions.map id, ⟨g.names⟩) := by
      rw [List.mapM_map]
      exact mapM_apply fun p hp ↦ resolveRule_rule hg (fun name ↦ (hmem name).2) hp
    rwa [List.map_id, ← hrules] at hmapM
  have hnumber : number (b.start.getD Grammar.defaultStart) ⟨g.names⟩ =
      .ok (g.start, ⟨g.names⟩) := by
    rw [hstart]
    exact number_name hg hg.start_lt
  have hresolve : b.resolve {} = .ok ((g.productions, g.start), ⟨g.names⟩) := by
    rw [resolve, bind_apply hdeclared, bind_apply hlhs, bind_apply hproductions,
      bind_apply hnumber]
    rfl
  rw [build, hresolve]
  rfl

end Builder

end ContextFree
