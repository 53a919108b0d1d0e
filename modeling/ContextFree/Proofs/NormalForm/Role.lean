import ContextFree.Proofs.Grammar.Renaming

/-!
# Roles of non-terminals in a binary form

A non-terminal of a binary form is one of the grammar's, or it stands for a terminal, or for the
last symbols of a right-hand side.  Written with these roles, the productions that an inherited
production makes (`Role.rulesOf`) do not depend on numbers, and they change with the numbers of the
grammar as the production does (`Role.rulesOf_rename`).
-/

namespace ContextFree

/-- What a non-terminal of a binary form stands for. -/
inductive Role where
  /-- A non-terminal of the grammar stands for itself. -/
  | original (a : NonTerm)
  | lifted (c : Char)
  /-- The last `n` symbols of the right-hand side of an inherited production. -/
  | rest (p : Production) (n : Nat)
deriving DecidableEq

namespace Role

/-- The role of a symbol in a lifted right-hand side. -/
def ofSymbol : Symbol → Role
  | .term c => .lifted c
  | .nonterm a => .original a

/-- A lifted right-hand side: only a terminal that stands alone is kept. -/
def liftedForm (rhs : List Symbol) : List (Char ⊕ Role) :=
  if rhs.length = 1 then rhs.map (·.spell original) else rhs.map (.inr ∘ ofSymbol)

/-- The production of a lifted terminal. -/
def liftedRule (c : Char) : Spelled Role := (lifted c, [.inl c])

/-- The roles of the helpers that fold a right-hand side of a given length. -/
def helpers (p : Production) : Nat → List Role
  | n + 3 => .rest p (n + 2) :: helpers p (n + 2)
  | _ => []

/-- The productions that fold what is left of a right-hand side. -/
def chain (p : Production) (a : Role) : List (Char ⊕ Role) → List (Spelled Role)
  | s :: s' :: s'' :: back =>
    (a, [s, .inr (.rest p (back.length + 2))]) ::
      chain p (.rest p (back.length + 2)) (s' :: s'' :: back)
  | back => [(a, back)]

/-- The roles that an inherited production makes. -/
def helpersOf (p : Production) : List Role := helpers p p.rhs.length

/-- The productions that an inherited production makes. -/
def rulesOf (p : Production) : List (Spelled Role) := chain p (.original p.lhs) (liftedForm p.rhs)

@[simp] theorem length_liftedForm (rhs : List Symbol) :
    (liftedForm rhs).length = rhs.length := by
  rw [liftedForm]
  split <;> exact List.length_map _

theorem ofSymbol_injective : Function.Injective ofSymbol := by
  intro s s' h
  cases s <;> cases s' <;> simp_all [ofSymbol]

theorem spell_original_injective : Function.Injective (Symbol.spell original) := by
  intro s s' h
  cases s <;> cases s' <;> simp_all

theorem liftedForm_injective : Function.Injective liftedForm := by
  intro rhs rhs' h
  have hlength : rhs.length = rhs'.length := by simpa using congrArg List.length h
  by_cases hone : rhs.length = 1
  · rw [liftedForm, liftedForm, if_pos hone, if_pos (hlength ▸ hone)] at h
    exact List.map_injective_iff.2 spell_original_injective h
  · rw [liftedForm, liftedForm, if_neg hone, if_neg (hlength ▸ hone)] at h
    exact List.map_injective_iff.2 (Sum.inr_injective.comp ofSymbol_injective) h

theorem chain_of_long {p : Production} {a : Role} {s s' s'' : Char ⊕ Role}
    {back : List (Char ⊕ Role)} : chain p a (s :: s' :: s'' :: back) =
      (a, [s, .inr (.rest p (back.length + 2))]) ::
        chain p (.rest p (back.length + 2)) (s' :: s'' :: back) := by
  rw [chain]

theorem chain_of_short {p : Production} {a : Role} {form : List (Char ⊕ Role)}
    (h : form.length ≤ 2) : chain p a form = [(a, form)] := by
  rw [chain]
  rintro s s' s'' back rfl
  simp at h

theorem length_le_of_short {α : Type} {l : List α}
    (hshort : ∀ s s' s'' back, l = s :: s' :: s'' :: back → False) : l.length ≤ 2 := by
  match l with
  | [] | [_] | [_, _] => simp
  | s :: s' :: s'' :: back => exact (hshort s s' s'' back rfl).elim

theorem le_two_of_short {n : Nat} (hshort : ∀ k, n = k + 3 → False) : n ≤ 2 := by
  by_contra hlt
  exact hshort (n - 3) (by omega)

theorem helpers_of_le {p : Production} {n : Nat} (h : n ≤ 2) : helpers p n = [] := by
  rw [helpers]
  omega

/-- Helpers stand for fewer and fewer symbols. -/
theorem mem_helpers {p : Production} {n : Nat} {r : Role} :
    r ∈ helpers p n ↔ ∃ k, 2 ≤ k ∧ k < n ∧ r = .rest p k := by
  induction n using helpers.induct with
  | case1 n ih =>
    rw [helpers, List.mem_cons, ih]
    constructor
    · rintro (rfl | ⟨k, hk, hlt, rfl⟩)
      · exact ⟨n + 2, by omega, by omega, rfl⟩
      · exact ⟨k, hk, by omega, rfl⟩
    · rintro ⟨k, hk, hlt, rfl⟩
      rcases Nat.eq_or_lt_of_le (Nat.le_of_lt_succ hlt) with rfl | hlt
      · exact .inl rfl
      · exact .inr ⟨k, hk, hlt, rfl⟩
  | case2 n hshort =>
    have hle := le_two_of_short hshort
    rw [helpers_of_le hle]
    simp only [List.not_mem_nil, false_iff, not_exists, not_and]
    omega

theorem nodup_helpers (p : Production) (n : Nat) : (helpers p n).Nodup := by
  induction n using helpers.induct with
  | case1 n ih =>
    rw [helpers, List.nodup_cons]
    refine ⟨fun hmem ↦ ?_, ih⟩
    obtain ⟨k, -, hlt, heq⟩ := mem_helpers.1 hmem
    cases heq
    exact Nat.lt_irrefl _ hlt
  | case2 n hshort =>
    rw [helpers_of_le (le_two_of_short hshort)]
    exact List.nodup_nil

/-- A helper is made for each symbol but two. -/
@[simp] theorem length_helpers (p : Production) (n : Nat) : (helpers p n).length = n - 2 := by
  induction n using helpers.induct with
  | case1 n ih =>
    rw [helpers, List.length_cons, ih]
    omega
  | case2 n hshort =>
    have hle := le_two_of_short hshort
    rw [helpers_of_le hle, List.length_nil]
    omega

/-- The left-hand sides of a fold: the first one is given, and each helper follows once. -/
theorem map_fst_chain (p : Production) (a : Role) (form : List (Char ⊕ Role)) :
    (chain p a form).map Prod.fst = a :: helpers p form.length := by
  induction a, form using chain.induct p with
  | case1 a s s' s'' back ih =>
    rw [chain_of_long, List.map_cons, ih]
    rfl
  | case2 a form hshort =>
    have hle := length_le_of_short hshort
    rw [chain_of_short hle, helpers_of_le hle, List.map_singleton]

theorem map_fst_rulesOf (p : Production) :
    (rulesOf p).map Prod.fst = .original p.lhs :: helpersOf p := by
  rw [rulesOf, map_fst_chain, length_liftedForm, helpersOf]

/-- Each production of a fold takes one symbol off, and the last one takes two or fewer. -/
@[simp] theorem length_rulesOf (p : Production) :
    (rulesOf p).length = max (p.rhs.length - 1) 1 := by
  have hlength := congrArg List.length (map_fst_rulesOf p)
  rw [List.length_map, List.length_cons, helpersOf, length_helpers] at hlength
  omega

/-- A helper stands in no lifted right-hand side. -/
theorem rest_notMem_liftedForm (p : Production) (n : Nat) (rhs : List Symbol) :
    .inr (.rest p n) ∉ liftedForm rhs := by
  intro hmem
  rw [liftedForm] at hmem
  split at hmem
  all_goals
    obtain ⟨s, -, heq⟩ := List.mem_map.1 hmem
    cases s <;> cases heq

/-- The production of a non-terminal of the grammar tells which inherited production made it: by the
helper in it, or else by the lifted right-hand side. -/
theorem eq_of_mem_rulesOf {p : Production} {a : NonTerm} {form : List (Char ⊕ Role)}
    (h : (.original a, form) ∈ rulesOf p) :
    a = p.lhs ∧ ((∃ s n, form = [s, .inr (.rest p n)]) ∨ form = liftedForm p.rhs) := by
  rw [rulesOf] at h
  by_cases hle : (liftedForm p.rhs).length ≤ 2
  · rw [chain_of_short hle, List.mem_singleton] at h
    obtain ⟨ha, hform⟩ := Prod.mk.inj h
    exact ⟨original.inj ha, .inr hform⟩
  · obtain ⟨s, s', s'', back, hlong⟩ : ∃ s s' s'' back, liftedForm p.rhs = s :: s' :: s'' :: back := by
      by_contra hshort
      exact hle (length_le_of_short fun s s' s'' back heq ↦ hshort ⟨s, s', s'', back, heq⟩)
    rw [hlong, chain_of_long, List.mem_cons] at h
    rcases h with h | h
    · obtain ⟨ha, hform⟩ := Prod.mk.inj h
      exact ⟨original.inj ha, .inl ⟨_, _, hform⟩⟩
    · -- the left-hand sides behind the first one are helpers
      have hlhs := List.mem_map_of_mem (f := Prod.fst) h
      rw [map_fst_chain, List.mem_cons, mem_helpers] at hlhs
      rcases hlhs with heq | ⟨_, -, -, heq⟩ <;> cases heq

end Role

namespace Role

/-! ## Other numbers -/

variable {σ : NonTerm → NonTerm}

/-- The role in a grammar with other numbers. -/
def rename (σ : NonTerm → NonTerm) : Role → Role
  | .original a => .original (σ a)
  | .lifted c => .lifted c
  | .rest p n => .rest (p.rename σ) n

theorem map_liftedForm (σ : NonTerm → NonTerm) (rhs : List Symbol) :
    (liftedForm rhs).map (Sum.map id (rename σ)) = liftedForm (rhs.map (·.rename σ)) := by
  rw [liftedForm, liftedForm, List.length_map]
  split
  · rw [List.map_map, List.map_map]
    refine List.map_congr_left fun s _ ↦ ?_
    cases s <;> rfl
  · rw [List.map_map, List.map_map]
    refine List.map_congr_left fun s _ ↦ ?_
    cases s <;> rfl

theorem map_chain (σ : NonTerm → NonTerm) (p : Production) (a : Role)
    (form : List (Char ⊕ Role)) :
    (chain p a form).map (Spelled.map (rename σ)) =
      chain (p.rename σ) (a.rename σ) (form.map (Sum.map id (rename σ))) := by
  induction a, form using chain.induct p with
  | case1 a s s' s'' back ih =>
    rw [chain_of_long, List.map_cons, ih]
    simp [chain_of_long, Spelled.map, rename]
  | case2 a form hshort =>
    have hle := length_le_of_short hshort
    rw [chain_of_short hle, chain_of_short ((List.length_map _).trans_le hle)]
    rfl

theorem map_helpers (σ : NonTerm → NonTerm) (p : Production) (n : Nat) :
    (helpers p n).map (rename σ) = helpers (p.rename σ) n := by
  induction n using helpers.induct with
  | case1 n ih =>
    rw [helpers, helpers, List.map_cons, ih]
    rfl
  | case2 n hshort =>
    have hle := le_two_of_short hshort
    rw [helpers_of_le hle, helpers_of_le hle, List.map_nil]

theorem map_helpersOf (σ : NonTerm → NonTerm) (p : Production) :
    (helpersOf p).map (rename σ) = helpersOf (p.rename σ) := by
  rw [helpersOf, map_helpers, helpersOf, Production.rename, List.length_map]

theorem map_rulesOf (σ : NonTerm → NonTerm) (p : Production) :
    (rulesOf p).map (Spelled.map (rename σ)) = rulesOf (p.rename σ) := by
  rw [rulesOf, map_chain, map_liftedForm]
  rfl

end Role

end ContextFree
