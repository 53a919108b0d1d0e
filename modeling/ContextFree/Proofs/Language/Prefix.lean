import ContextFree.Proofs.Language.Yield

/-!
# Beginnings of sentential forms

A form leads to a symbol behind a word if it derives a form that begins with the word and goes on
with the symbol.  As with yields, there is a reading of this without intermediate forms: the symbols
that stand before account for parts of the word, and the symbol itself is one of the form or lies
within one of its non-terminals.  `leads_iff_derives` says that it is the same as rewriting.
-/

namespace ContextFree.Grammar

/-- A form leads to a symbol behind a word. -/
inductive Leads (g : Grammar) : List Symbol → List Char → Symbol → Prop where
  | here (s : Symbol) (form : List Symbol) : g.Leads (s :: form) [] s
  /-- The first symbol accounts for the first part of the word. -/
  | skip {s s' : Symbol} {form : List Symbol} {u v : List Char} :
      g.Yields [s'] u → g.Leads form v s → g.Leads (s' :: form) (u ++ v) s
  /-- The symbol lies within the first non-terminal. -/
  | expand {p : Production} {s : Symbol} {u : List Char} (h : p ∈ g.productions)
      (form : List Symbol) : g.Leads p.rhs u s → g.Leads (.nonterm p.lhs :: form) u s

variable {g : Grammar} {form form' : List Symbol} {u v : List Char} {s : Symbol}

/-! ## Forms side by side -/

theorem Leads.append_right (form' : List Symbol) (h : g.Leads form u s) :
    g.Leads (form ++ form') u s := by
  induction h with
  | here s form => exact .here s _
  | skip hu _ ih => exact .skip hu ih
  | expand hp form hrhs => exact .expand hp _ hrhs

theorem Leads.append_left (hform : g.Yields form u) (h : g.Leads form' v s) :
    g.Leads (form ++ form') (u ++ v) s := by
  induction form generalizing u with
  | nil =>
    rw [yields_nil_iff] at hform
    rwa [hform]
  | cons s' form ih =>
    obtain ⟨u, u', rfl, hu, hu'⟩ := yields_cons_iff.1 hform
    rw [List.append_assoc]
    exact .skip hu (ih hu')

/-- The symbol is found in the first form, or the first form accounts for the beginning of the
word. -/
theorem leads_append_iff : g.Leads (form ++ form') u s ↔
    g.Leads form u s ∨ ∃ v v', u = v ++ v' ∧ g.Yields form v ∧ g.Leads form' v' s := by
  constructor
  · intro h
    induction form generalizing u with
    | nil => exact .inr ⟨[], u, rfl, .nil, h⟩
    | cons s' form ih =>
      cases h with
      | here => exact .inl (.here _ _)
      | @skip _ _ _ u v hu hv =>
        rcases ih hv with hv | ⟨v, v', rfl, hv, hv'⟩
        · exact .inl (.skip hu hv)
        · exact .inr ⟨u ++ v, v', (List.append_assoc ..).symm,
            yields_cons_iff.2 ⟨u, v, rfl, hu, hv⟩, hv'⟩
      | expand hp _ hrhs => exact .inl (.expand hp _ hrhs)
  · rintro (h | ⟨v, v', rfl, hv, hv'⟩)
    · exact h.append_right form'
    · exact .append_left hv hv'

/-- A non-terminal leads to itself, and to what its productions lead to. -/
theorem leads_nonterm_iff {a : NonTerm} : g.Leads [.nonterm a] u s ↔
    u = [] ∧ s = .nonterm a ∨ ∃ p ∈ g.productions, p.lhs = a ∧ g.Leads p.rhs u s := by
  constructor
  · intro h
    cases h with
    | here => exact .inl ⟨rfl, rfl⟩
    | skip _ hv => cases hv
    | expand hp _ hrhs => exact .inr ⟨_, hp, rfl, hrhs⟩
  · rintro (⟨rfl, rfl⟩ | ⟨p, hp, rfl, hrhs⟩)
    · exact .here _ _
    · exact .expand hp _ hrhs

/-! ## Leading and derivations -/

/-- What a form leads to after a rewriting, it leads to before. -/
theorem Leads.of_rewrites {result : List Symbol} (hstep : g.Rewrites form result)
    (h : g.Leads result u s) : g.Leads form u s := by
  obtain ⟨hp, front, back⟩ := hstep
  rw [List.append_assoc, leads_append_iff] at h
  rcases h with h | ⟨v, v', rfl, hv, h⟩
  · exact h.append_right _
  · refine .append_left hv ?_
    rcases leads_append_iff.1 h with h | ⟨x, x', rfl, hx, h⟩
    · exact .expand hp back h
    · exact .skip (yields_nonterm_iff.2 ⟨_, hp, rfl, hx⟩) h

theorem Leads.of_derives {result : List Symbol} (h : g.Derives form result)
    (hresult : g.Leads result u s) : g.Leads form u s := by
  induction h with
  | refl => exact hresult
  | tail _ hstep ih => exact ih (hresult.of_rewrites hstep)

/-- A form leads to a symbol behind a word just if it derives a form that begins so. -/
theorem leads_iff_derives :
    g.Leads form u s ↔ ∃ back, g.Derives form (u.map .term ++ s :: back) := by
  constructor
  · intro h
    induction h with
    | here s form => exact ⟨form, .refl _⟩
    | skip hu _ ih =>
      obtain ⟨back, hback⟩ := ih
      exact ⟨back, by simpa using hu.derives.append hback⟩
    | expand hp form _ ih =>
      obtain ⟨back, hback⟩ := ih
      exact ⟨back ++ form, by simpa using ((Derives.of_mem hp).trans hback).append_right form⟩
  · rintro ⟨back, h⟩
    have hlast : g.Leads (u.map .term ++ s :: back) (u ++ []) s :=
      .append_left (yields_map_term u) (.here s back)
    rw [List.append_nil] at hlast
    exact hlast.of_derives h

end ContextFree.Grammar
