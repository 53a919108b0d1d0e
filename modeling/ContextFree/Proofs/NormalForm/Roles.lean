import ContextFree.Proofs.NormalForm.Binarization
import ContextFree.Proofs.NormalForm.Role
import Mathlib.Data.List.Forall2
import Mathlib.Data.List.Perm.Basic

/-!
# The non-terminals and productions of a binary form

Each non-terminal of a binary form has a role: it is one of the grammar's, or it stands for a
terminal, or for the last symbols of a right-hand side.  Which roles there are, and which
productions, when the non-terminals are written as their roles, depends on the inherited
right-hand sides only, and not on the order in which they come (`Grammar.exists_hasRoles`).  No role
is given twice.
-/

namespace ContextFree

namespace Binarization

open Role

variable {g : Grammar} {st : Binarization} {roles : List Role} {dealt : List Production}
  {ν : NonTerm → Role}

/-! ## Roles of numbers -/

/-- The non-terminals of the grammar stand for themselves, and those after them have given roles. -/
structure Assigns (g : Grammar) (roles : List Role) (ν : NonTerm → Role) : Prop where
  original : ∀ a : NonTerm, a.index < g.size → ν a = .original a
  fresh : ∀ i r, roles[i]? = some r → ν ⟨g.size + i⟩ = r

theorem exists_assigns (g : Grammar) (roles : List Role) : ∃ ν, Assigns g roles ν := by
  refine ⟨fun a ↦ if a.index < g.size then .original a
    else roles.getD (a.index - g.size) (.original a), fun a ha ↦ if_pos ha, fun i r hr ↦ ?_⟩
  rw [if_neg (Nat.not_lt.2 (Nat.le_add_right _ _))]
  simp [hr]

theorem Assigns.of_append {roles' : List Role} (h : Assigns g (roles ++ roles') ν) :
    Assigns g roles ν where
  original := h.original
  fresh i r hr := h.fresh i r <| by
    rw [List.getElem?_append_left (List.getElem?_eq_some_iff.1 hr).1, hr]

/-- The next number has the next role. -/
theorem Assigns.fresh_eq {r : Role} {roles' : List Role} (h : Assigns g (roles ++ r :: roles') ν)
    (hlength : st.names.length = g.size + roles.length) : ν st.fresh.1 = r := by
  have hnext := h.fresh roles.length r (by simp)
  rwa [← hlength] at hnext

/-- The roles of a grammar that has one more non-terminal for each role. -/
theorem Assigns.map_nonterms (h : Assigns g roles ν) {g' : Grammar}
    (hlength : g'.size = g.size + roles.length) :
    g'.nonterms.map ν = g.nonterms.map .original ++ roles := by
  have hold : g.nonterms.map ν = g.nonterms.map .original :=
    List.map_congr_left fun a ha ↦ h.original a (Grammar.mem_nonterms.1 ha)
  have hnew : (List.range roles.length).map (fun i ↦ ν ⟨g.size + i⟩) = roles := by
    refine List.ext_getElem (by simp) fun i _ hi ↦ ?_
    rw [List.getElem_map, List.getElem_range]
    exact h.fresh i _ (List.getElem?_eq_getElem hi)
  rw [← hold, Grammar.nonterms, hlength, List.range_add, List.map_append, List.map_append]
  refine congrArg _ (.trans ?_ hnew)
  simp

/-! ## Lifted symbols -/

/-- The terminals that were lifted. -/
def terminals (st : Binarization) : List Char := st.lifted.map (·.1)

/-- A symbol and what stands for it in a lifted right-hand side. -/
inductive LiftsTo (lifted : List (Char × NonTerm)) : Symbol → Symbol → Prop where
  | nonterm (a : NonTerm) : LiftsTo lifted (.nonterm a) (.nonterm a)
  | term {c : Char} {a : NonTerm} (h : (c, a) ∈ lifted) : LiftsTo lifted (.term c) (.nonterm a)

/-- A right-hand side and its lifted form. -/
def FormLiftsTo (lifted : List (Char × NonTerm)) (rhs rhs' : List Symbol) : Prop :=
  if rhs.length = 1 then rhs' = rhs else List.Forall₂ (LiftsTo lifted) rhs rhs'

variable {lifted lifted' : List (Char × NonTerm)} {rhs rhs' : List Symbol}

theorem LiftsTo.mono (hsub : lifted ⊆ lifted') {s s' : Symbol} (h : LiftsTo lifted s s') :
    LiftsTo lifted' s s' := by
  cases h with
  | nonterm a => exact .nonterm a
  | term h => exact .term (hsub h)

theorem FormLiftsTo.mono (hsub : lifted ⊆ lifted') (h : FormLiftsTo lifted rhs rhs') :
    FormLiftsTo lifted' rhs rhs' := by
  rw [FormLiftsTo] at h ⊢
  split
  case isTrue hone => rwa [if_pos hone] at h
  case isFalse hone =>
    rw [if_neg hone] at h
    exact h.imp fun _ _ ↦ LiftsTo.mono hsub

/-- A terminal is lifted to one non-terminal only. -/
theorem FormLiftsTo.unique (hnodup : (lifted.map (·.1)).Nodup) {rhs'' : List Symbol}
    (h : FormLiftsTo lifted rhs rhs') (h' : FormLiftsTo lifted rhs rhs'') : rhs' = rhs'' := by
  rw [FormLiftsTo] at h h'
  split at h
  case isTrue hone =>
    rw [if_pos hone] at h'
    rw [h, h']
  case isFalse hone =>
    rw [if_neg hone] at h'
    refine List.right_unique_forall₂' (fun s x y hx hy ↦ ?_) h h'
    cases hx with
    | nonterm a =>
      cases hy
      rfl
    | term hmem =>
      cases hy with
      | term hmem' =>
        have heq := List.inj_on_of_nodup_map hnodup hmem hmem' rfl
        exact congrArg (Symbol.nonterm ∘ Prod.snd) heq

/-- With roles for non-terminals, a lifted right-hand side does not depend on the numbers. -/
theorem FormLiftsTo.map_spell (h : FormLiftsTo lifted rhs rhs') (hrhs : ∀ s ∈ rhs, g.Owns s)
    (hν : ∀ a : NonTerm, a.index < g.size → ν a = .original a)
    (hlifted : ∀ x ∈ lifted, ν x.2 = .lifted x.1) : rhs'.map (·.spell ν) = liftedForm rhs := by
  have hself : rhs.map (·.spell ν) = rhs.map (·.spell .original) :=
    List.map_congr_left fun s hs ↦ by
      cases s with
      | term c => rfl
      | nonterm a => exact congrArg Sum.inr (hν a (hrhs _ hs a rfl))
  rw [FormLiftsTo] at h
  rw [liftedForm]
  split at h
  case isTrue hone => rw [if_pos hone, h, hself]
  case isFalse hone =>
    rw [if_neg hone]
    clear hone hself
    induction h with
    | nil => rfl
    | cons hs _ ih =>
      obtain ⟨howned, hrest⟩ := List.forall_mem_cons.1 hrhs
      rw [List.map_cons, List.map_cons, ih hrest]
      cases hs with
      | nonterm a => rw [Symbol.spell_nonterm, hν a (howned a rfl)]; rfl
      | term hmem => rw [Symbol.spell_nonterm, hlifted _ hmem]; rfl

/-! ## Describing a state -/

/-- The state in terms of roles: which roles the fresh non-terminals have, in the order of their
numbers, and which productions were dealt with. -/
structure Describes (g : Grammar) (roles : List Role) (dealt : List Production)
    (st : Binarization) : Prop where
  length_names : st.names.length = g.size + roles.length
  roles_perm : roles.Perm (st.terminals.map .lifted ++ dealt.flatMap helpersOf)
  terminals_nodup : st.terminals.Nodup
  dealt_nodup : dealt.Nodup
  owned : ∀ p ∈ dealt, ∀ s ∈ p.rhs, g.Owns s
  seen : ∀ p ∈ dealt, ∃ rhs, FormLiftsTo st.lifted p.rhs rhs ∧ (p.lhs, rhs) ∈ st.seen
  dealt_of_seen : ∀ x ∈ st.seen, ∃ p ∈ dealt, p.lhs = x.1 ∧ FormLiftsTo st.lifted p.rhs x.2
  lifted : ∀ ν, Assigns g roles ν → ∀ x ∈ st.lifted, ν x.2 = .lifted x.1
  productions : ∀ ν, Assigns g roles ν → (st.productions.map (·.spell ν)).Perm
    (st.terminals.map liftedRule ++ dealt.flatMap rulesOf)

theorem describes_start (g : Grammar) : Describes g [] [] ⟨g.names, 0, [], [], []⟩ where
  length_names := rfl
  roles_perm := .refl _
  terminals_nodup := List.nodup_nil
  dealt_nodup := List.nodup_nil
  owned := nofun
  seen := nofun
  dealt_of_seen := nofun
  lifted _ _ := nofun
  productions _ _ := .refl _

/-! ## Lifting -/

/-- Lifting a terminal that was not lifted. -/
theorem Describes.lift_new (h : Describes g roles dealt st) {c : Char}
    (hlookup : st.lifted.lookup c = none) :
    Describes g (roles ++ [.lifted c]) dealt (st.lift c).2 := by
  have hnew : c ∉ st.terminals := by
    intro hmem
    obtain ⟨x, hx, rfl⟩ := List.mem_map.1 hmem
    simpa using List.lookup_eq_none_iff.1 hlookup x hx
  have hsub : st.lifted ⊆ (c, st.fresh.1) :: st.lifted := List.subset_cons_self _ _
  rw [lift_of_lookup_eq_none hlookup]
  constructor
  case length_names => simp [emit, Binarization.fresh, h.length_names, Nat.add_assoc]
  case roles_perm =>
    refine List.perm_append_comm.trans ?_
    exact h.roles_perm.cons _
  case terminals_nodup => exact List.nodup_cons.2 ⟨hnew, h.terminals_nodup⟩
  case dealt_nodup => exact h.dealt_nodup
  case owned => exact h.owned
  case seen =>
    intro p hp
    obtain ⟨rhs, hform, hmem⟩ := h.seen p hp
    exact ⟨rhs, hform.mono hsub, hmem⟩
  case dealt_of_seen =>
    intro x hx
    obtain ⟨p, hp, hlhs, hform⟩ := h.dealt_of_seen x hx
    exact ⟨p, hp, hlhs, hform.mono hsub⟩
  case lifted =>
    intro ν hν
    refine List.forall_mem_cons.2 ⟨?_, h.lifted ν hν.of_append⟩
    exact hν.fresh_eq h.length_names
  case productions =>
    intro ν hν
    have hrule : (Production.mk st.fresh.1 [.term c]).spell ν = liftedRule c := by
      simp [Production.spell, hν.fresh_eq h.length_names, liftedRule]
    change ((st.productions ++ [Production.mk st.fresh.1 [.term c]]).map (·.spell ν)).Perm _
    rw [List.map_append, List.map_singleton, hrule]
    refine List.perm_append_comm.trans ?_
    exact (h.productions ν hν.of_append).cons _

/-- Lifting one terminal. -/
theorem Describes.lift (h : Describes g roles dealt st) (c : Char) :
    ∃ roles', Describes g roles' dealt (st.lift c).2 ∧ st.lifted ⊆ (st.lift c).2.lifted ∧
      (c, (st.lift c).1) ∈ (st.lift c).2.lifted ∧
      ∀ d, d ∈ (st.lift c).2.terminals ↔ d ∈ st.terminals ∨ d = c := by
  cases hlookup : st.lifted.lookup c with
  | some a =>
    obtain ⟨l₁, l₂, hlifted, -⟩ := List.lookup_eq_some_iff.1 hlookup
    have hmem : (c, a) ∈ st.lifted := by simp [hlifted]
    rw [lift_of_lookup_eq_some hlookup]
    refine ⟨roles, h, List.Subset.refl _, hmem, fun d ↦ ?_⟩
    rw [or_iff_left_of_imp]
    rintro rfl
    exact List.mem_map_of_mem hmem
  | none =>
    refine ⟨_, h.lift_new hlookup, ?_⟩
    rw [lift_of_lookup_eq_none hlookup]
    refine ⟨List.subset_cons_self _ _, .head _, fun d ↦ ?_⟩
    change d ∈ c :: st.terminals ↔ _
    rw [List.mem_cons, or_comm]

/-- Lifting a right-hand side. -/
theorem Describes.liftAll (h : Describes g roles dealt st) (rhs : List Symbol) :
    ∃ roles', Describes g roles' dealt (st.liftAll rhs).2 ∧ st.lifted ⊆ (st.liftAll rhs).2.lifted ∧
      List.Forall₂ (LiftsTo (st.liftAll rhs).2.lifted) rhs (st.liftAll rhs).1 ∧
      ∀ c, c ∈ (st.liftAll rhs).2.terminals ↔ c ∈ st.terminals ∨ .term c ∈ rhs := by
  induction rhs generalizing st roles with
  | nil => exact ⟨roles, h, List.Subset.refl _, .nil, fun c ↦ by simp [Binarization.liftAll]⟩
  | cons s rhs ih =>
    cases s with
    | nonterm a =>
      obtain ⟨roles', h', hsub, hforms, hterminals⟩ := ih h
      refine ⟨roles', h', hsub, .cons (.nonterm a) hforms, fun c ↦ (hterminals c).trans ?_⟩
      simp
    | term c =>
      obtain ⟨roles₁, h₁, hsub₁, hmem, hterminals₁⟩ := h.lift c
      obtain ⟨roles', h', hsub, hforms, hterminals⟩ := ih h₁
      refine ⟨roles', h', List.Subset.trans hsub₁ hsub, .cons (.term (hsub hmem)) hforms, fun d ↦ ?_⟩
      refine (hterminals d).trans ?_
      rw [hterminals₁ d, List.mem_cons, Symbol.term.injEq, or_assoc]

/-! ## Folding -/

theorem lifted_fold (st : Binarization) (lhs : NonTerm) (rhs : List Symbol) :
    (st.fold lhs rhs).lifted = st.lifted := by
  induction st, lhs, rhs using fold.induct with
  | case1 st lhs s s' s'' back helper st₁ hfresh ih =>
    obtain rfl : st.fresh.1 = helper := congrArg Prod.fst hfresh
    obtain rfl : st.fresh.2 = st₁ := congrArg Prod.snd hfresh
    rw [fold_of_long, ih]
    rfl
  | case2 st lhs rhs hshort =>
    rw [fold_of_short hshort]
    rfl

/-- A fold makes its helpers, in the order of their roles, and its productions. -/
theorem fold_spec (p : Production) (st : Binarization) (lhs : NonTerm) (rhs : List Symbol)
    (hlength : st.names.length = g.size + roles.length) :
    (st.fold lhs rhs).names.length = g.size + (roles ++ helpers p rhs.length).length ∧
      ∀ ν, Assigns g (roles ++ helpers p rhs.length) ν →
        (st.fold lhs rhs).productions.map (·.spell ν) =
          st.productions.map (·.spell ν) ++ chain p (ν lhs) (rhs.map (·.spell ν)) := by
  induction st, lhs, rhs using fold.induct generalizing roles with
  | case1 st lhs s s' s'' back helper st₁ hfresh ih =>
    obtain rfl : st.fresh.1 = helper := congrArg Prod.fst hfresh
    obtain rfl : st.fresh.2 = st₁ := congrArg Prod.snd hfresh
    have hroles : roles ++ helpers p (s :: s' :: s'' :: back).length =
        (roles ++ [.rest p (back.length + 2)]) ++ helpers p (s' :: s'' :: back).length := by
      simp [helpers]
    have hlength' : (st.fresh.2.emit lhs [s, .nonterm st.fresh.1]).names.length =
        g.size + (roles ++ [Role.rest p (back.length + 2)]).length := by
      simp [emit, Binarization.fresh, hlength, Nat.add_assoc]
    obtain ⟨hnames, hproductions⟩ := ih hlength'
    rw [fold_of_long, hroles]
    refine ⟨hnames, fun ν hν ↦ ?_⟩
    have hhelper : ν st.fresh.1 = .rest p (back.length + 2) := by
      rw [List.append_assoc] at hν
      exact hν.fresh_eq hlength
    rw [hproductions ν hν, hhelper]
    simp [emit, Binarization.fresh, Production.spell, chain_of_long, ← hhelper]
  | case2 st lhs rhs hshort =>
    have hle := length_le_of_short hshort
    rw [fold_of_short hshort, helpers_of_le hle, List.append_nil]
    refine ⟨hlength, fun ν _ ↦ ?_⟩
    have hshort' : (rhs.map (·.spell ν)).length ≤ 2 := (List.length_map _).trans_le hle
    simp [emit, Production.spell, chain_of_short hshort']

/-! ## Adding -/

theorem FormLiftsTo.length_eq (h : FormLiftsTo lifted rhs rhs') : rhs'.length = rhs.length := by
  rw [FormLiftsTo] at h
  split at h
  · rw [h]
  · exact h.length_eq.symm

/-- What a lifted right-hand side was made of tells whether it was seen. -/
theorem Describes.mem_seen_iff (h : Describes g roles dealt st) {p : Production}
    (howned : ∀ s ∈ p.rhs, g.Owns s) (hform : FormLiftsTo st.lifted p.rhs rhs') :
    (p.lhs, rhs') ∈ st.seen ↔ p ∈ dealt := by
  constructor
  · intro hmem
    obtain ⟨q, hq, hlhs, hq'⟩ := h.dealt_of_seen _ hmem
    obtain ⟨ν, hν⟩ := exists_assigns g roles
    have hlifted := h.lifted ν hν
    have hrhs : liftedForm q.rhs = liftedForm p.rhs :=
      (hq'.map_spell (h.owned q hq) hν.original hlifted).symm.trans
        (hform.map_spell howned hν.original hlifted)
    obtain ⟨lhs, rhs⟩ := q
    obtain rfl : lhs = p.lhs := hlhs
    obtain rfl : rhs = p.rhs := liftedForm_injective hrhs
    exact hq
  · intro hp
    obtain ⟨rhs'', hform', hmem⟩ := h.seen p hp
    rwa [hform.unique h.terminals_nodup hform']

/-- A new part goes behind the first of two. -/
theorem perm_append_append {α : Type} {l front back : List α} (h : l.Perm (front ++ back))
    (new : List α) : (l ++ new).Perm (front ++ (new ++ back)) :=
  calc (l ++ new).Perm (front ++ back ++ new) := h.append_right new
    _ = front ++ (back ++ new) := List.append_assoc ..
    (front ++ (back ++ new)).Perm (front ++ (new ++ back)) :=
      List.perm_append_comm.append_left front

/-- Folding an inherited production that was not dealt with. -/
theorem Describes.fold_new (h : Describes g roles dealt st) {p : Production} (hp : p ∉ dealt)
    (hlhs : p.lhs.index < g.size) (howned : ∀ s ∈ p.rhs, g.Owns s)
    (hform : FormLiftsTo st.lifted p.rhs rhs') :
    Describes g (roles ++ helpersOf p) (p :: dealt)
      ({ st with seen := (p.lhs, rhs') :: st.seen }.fold p.lhs rhs') := by
  obtain ⟨hnames, hproductions⟩ :=
    fold_spec p { st with seen := (p.lhs, rhs') :: st.seen } p.lhs rhs' h.length_names
  have hlifted := lifted_fold { st with seen := (p.lhs, rhs') :: st.seen } p.lhs rhs'
  have hseen := seen_fold { st with seen := (p.lhs, rhs') :: st.seen } p.lhs rhs'
  rw [hform.length_eq] at hnames hproductions
  constructor
  case length_names => exact hnames
  case roles_perm =>
    rw [terminals, hlifted]
    exact perm_append_append h.roles_perm _
  case terminals_nodup =>
    rw [terminals, hlifted]
    exact h.terminals_nodup
  case dealt_nodup => exact List.nodup_cons.2 ⟨hp, h.dealt_nodup⟩
  case owned => exact List.forall_mem_cons.2 ⟨howned, h.owned⟩
  case seen =>
    rw [hlifted, hseen]
    refine List.forall_mem_cons.2 ⟨⟨rhs', hform, .head _⟩, fun q hq ↦ ?_⟩
    obtain ⟨rhs, hrhs, hmem⟩ := h.seen q hq
    exact ⟨rhs, hrhs, .tail _ hmem⟩
  case dealt_of_seen =>
    rw [hlifted, hseen]
    refine List.forall_mem_cons.2 ⟨⟨p, .head _, rfl, hform⟩, fun x hx ↦ ?_⟩
    obtain ⟨q, hq, hx⟩ := h.dealt_of_seen x hx
    exact ⟨q, .tail _ hq, hx⟩
  case lifted =>
    intro ν hν
    rw [hlifted]
    exact h.lifted ν hν.of_append
  case productions =>
    intro ν hν
    have hrules : chain p (ν p.lhs) (rhs'.map (·.spell ν)) = rulesOf p := by
      rw [hν.original _ hlhs,
        hform.map_spell howned hν.original (h.lifted ν hν.of_append), rulesOf]
    rw [terminals, hlifted, hproductions ν hν, hrules]
    exact perm_append_append (h.productions ν hν.of_append) _

/-- An inherited production is folded once. -/
theorem Describes.fold_unless_seen (h : Describes g roles dealt st) {p : Production}
    (hlhs : p.lhs.index < g.size) (howned : ∀ s ∈ p.rhs, g.Owns s)
    (hform : FormLiftsTo st.lifted p.rhs rhs') {st' : Binarization}
    (hst' : st' = if (p.lhs, rhs') ∈ st.seen then st
      else { st with seen := (p.lhs, rhs') :: st.seen }.fold p.lhs rhs') :
    ∃ roles' dealt', Describes g roles' dealt' st' ∧ st'.lifted = st.lifted ∧
      ∀ q, q ∈ dealt' ↔ q = p ∨ q ∈ dealt := by
  subst hst'
  split
  case isTrue hseen =>
    have hp := (h.mem_seen_iff howned hform).1 hseen
    exact ⟨roles, dealt, h, rfl, fun q ↦ (or_iff_right_of_imp fun hq ↦ hq ▸ hp).symm⟩
  case isFalse hseen =>
    have hp : p ∉ dealt := fun hp ↦ hseen ((h.mem_seen_iff howned hform).2 hp)
    exact ⟨_, _, h.fold_new hp hlhs howned hform, lifted_fold _ _ _, fun q ↦ List.mem_cons⟩

/-- A terminal is lifted if it occurs in a right-hand side of two symbols or more. -/
def LiftedBy (dealt : List Production) (c : Char) : Prop :=
  ∃ p ∈ dealt, p.rhs.length ≠ 1 ∧ .term c ∈ p.rhs

/-- Adding an inherited production deals with it. -/
theorem Describes.add (h : Describes g roles dealt st)
    (hterminals : ∀ c, c ∈ st.terminals ↔ LiftedBy dealt c) {p : Production}
    (hlhs : p.lhs.index < g.size) (howned : ∀ s ∈ p.rhs, g.Owns s) :
    ∃ roles' dealt', Describes g roles' dealt' (st.add p.lhs p.rhs) ∧
      (∀ c, c ∈ (st.add p.lhs p.rhs).terminals ↔ LiftedBy dealt' c) ∧
      ∀ q, q ∈ dealt' ↔ q = p ∨ q ∈ dealt := by
  have hliftedBy : ∀ {dealt' : List Production}, (∀ q, q ∈ dealt' ↔ q = p ∨ q ∈ dealt) →
      ∀ c, LiftedBy dealt' c ↔ c ∈ st.terminals ∨ p.rhs.length ≠ 1 ∧ .term c ∈ p.rhs := by
    intro dealt' hdealt' c
    rw [hterminals, or_comm]
    simp only [LiftedBy, hdealt', or_and_right, exists_or, exists_eq_left]
  by_cases hone : p.rhs.length = 1
  · have hform : FormLiftsTo st.lifted p.rhs p.rhs := by rw [FormLiftsTo, if_pos hone]
    have hadd : st.add p.lhs p.rhs = if (p.lhs, p.rhs) ∈ st.seen then st
        else { st with seen := (p.lhs, p.rhs) :: st.seen }.fold p.lhs p.rhs := by
      simp [Binarization.add, hone]
    obtain ⟨roles', dealt', h', hlifted, hdealt'⟩ := h.fold_unless_seen hlhs howned hform hadd
    refine ⟨roles', dealt', h', fun c ↦ ?_, hdealt'⟩
    rw [hliftedBy hdealt', terminals, hlifted]
    simp [hone, terminals]
  · obtain ⟨roles₁, h₁, -, hforms, hterminals₁⟩ := h.liftAll p.rhs
    have hform : FormLiftsTo (st.liftAll p.rhs).2.lifted p.rhs (st.liftAll p.rhs).1 := by
      rwa [FormLiftsTo, if_neg hone]
    have hadd : st.add p.lhs p.rhs =
        if (p.lhs, (st.liftAll p.rhs).1) ∈ (st.liftAll p.rhs).2.seen then (st.liftAll p.rhs).2
        else { (st.liftAll p.rhs).2 with
          seen := (p.lhs, (st.liftAll p.rhs).1) :: (st.liftAll p.rhs).2.seen }.fold p.lhs
            (st.liftAll p.rhs).1 := by
      rw [Binarization.add, if_neg hone]
    obtain ⟨roles', dealt', h', hlifted, hdealt'⟩ := h₁.fold_unless_seen hlhs howned hform hadd
    refine ⟨roles', dealt', h', fun c ↦ ?_, hdealt'⟩
    rw [hliftedBy hdealt', terminals, hlifted]
    exact (hterminals₁ c).trans (or_congr_right (and_iff_right hone).symm)

/-! ## The whole grammar -/

/-- Adding one inherited production after the other. -/
theorem Describes.foldl_add (h : Describes g roles dealt st)
    (hterminals : ∀ c, c ∈ st.terminals ↔ LiftedBy dealt c) {ps : List Production}
    (hps : ∀ p ∈ ps, p.lhs.index < g.size ∧ ∀ s ∈ p.rhs, g.Owns s) :
    ∃ roles' dealt', Describes g roles' dealt' (ps.foldl (fun st p ↦ st.add p.lhs p.rhs) st) ∧
      (∀ c, c ∈ (ps.foldl (fun st p ↦ st.add p.lhs p.rhs) st).terminals ↔ LiftedBy dealt' c) ∧
      ∀ q, q ∈ dealt' ↔ q ∈ ps ∨ q ∈ dealt := by
  induction ps generalizing roles dealt st with
  | nil => exact ⟨roles, dealt, h, hterminals, by simp⟩
  | cons p ps ih =>
    obtain ⟨⟨hlhs, howned⟩, hps⟩ := List.forall_mem_cons.1 hps
    obtain ⟨roles₁, dealt₁, h₁, hterminals₁, hdealt₁⟩ := h.add hterminals hlhs howned
    obtain ⟨roles', dealt', h', hterminals', hdealt'⟩ := ih h₁ hterminals₁ hps
    refine ⟨roles', dealt', h', hterminals', fun q ↦ ?_⟩
    rw [hdealt', hdealt₁, List.mem_cons, or_left_comm, or_assoc]

end Binarization

namespace Grammar

open Role

variable {g : Grammar}

theorem owns_of_mem_inherited (hg : g.WellFormed) {a : NonTerm} {rhs : List Symbol}
    (h : rhs ∈ g.inherited a) : ∀ s ∈ rhs, g.Owns s := by
  obtain ⟨b, -, hp, -⟩ := mem_inherited.1 h
  exact hg.rhs_owned _ hp

/-- The roles of the non-terminals of the binary form, the terminals that are lifted, and the
inherited productions that are dealt with, each once. -/
structure HasRoles (g : Grammar) (ν : NonTerm → Role) (lifted : List Char)
    (dealt : List Production) : Prop where
  original : ∀ a : NonTerm, a.index < g.size → ν a = .original a
  lifted_nodup : lifted.Nodup
  dealt_nodup : dealt.Nodup
  mem_lifted : ∀ c, c ∈ lifted ↔ ∃ p ∈ dealt, p.rhs.length ≠ 1 ∧ .term c ∈ p.rhs
  mem_dealt : ∀ p, p ∈ dealt ↔ p.lhs.index < g.size ∧ p.rhs ∈ g.inherited p.lhs
  nonterms : (g.binarize.nonterms.map ν).Perm
    (g.nonterms.map .original ++ (lifted.map .lifted ++ dealt.flatMap helpersOf))
  productions : (g.binarize.productions.map (·.spell ν)).Perm
    (lifted.map liftedRule ++ dealt.flatMap rulesOf)

/-- Every binary form has roles for its non-terminals. -/
theorem exists_hasRoles (hg : g.WellFormed) : ∃ ν lifted dealt, g.HasRoles ν lifted dealt := by
  have hps : ∀ p ∈ g.inheritedProductions, p.lhs.index < g.size ∧ ∀ s ∈ p.rhs, g.Owns s :=
    fun p hp ↦ (mem_inheritedProductions.1 hp).imp_right (owns_of_mem_inherited hg)
  obtain ⟨roles, dealt, h, hterminals, hdealt⟩ := (Binarization.describes_start g).foldl_add
    (by simp [Binarization.terminals, Binarization.LiftedBy]) hps
  rw [← binarization_eq] at h hterminals
  obtain ⟨ν, hν⟩ := Binarization.exists_assigns g roles
  refine ⟨ν, g.binarization.terminals, dealt, hν.original, h.terminals_nodup, h.dealt_nodup,
    hterminals, fun p ↦ ?_, ?_, ?_⟩
  · simpa [mem_inheritedProductions] using hdealt p
  · have hsize : g.binarize.size = g.size + roles.length := h.length_names
    rw [hν.map_nonterms hsize]
    exact h.roles_perm.append_left _
  · exact ((List.mergeSort_perm _ _).map _).trans (h.productions ν hν)

end Grammar

end ContextFree
