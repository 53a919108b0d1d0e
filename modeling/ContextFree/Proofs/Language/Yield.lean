import ContextFree.Language.Derivation

/-!
# Yields

A derivation of a word can be read symbol by symbol: each symbol of the form accounts for one part
of the word, a terminal for itself and a non-terminal for what the right-hand side of one of its
productions accounts for.  This big-step reading has no intermediate forms, so it is what the
recognizers are compared with; `yields_iff_derives` says that it is the same as rewriting.

If no production is empty, every symbol accounts for at least one character.
-/

namespace ContextFree.Grammar

/-- The symbols of a form account, from left to right, for the parts of a word. -/
inductive Yields (g : Grammar) : List Symbol → List Char → Prop where
  | nil : g.Yields [] []
  /-- A terminal accounts for itself. -/
  | term (c : Char) {form : List Symbol} {w : List Char} :
      g.Yields form w → g.Yields (.term c :: form) (c :: w)
  /-- A non-terminal accounts for what one of its right-hand sides does. -/
  | nonterm {p : Production} {form : List Symbol} {u v : List Char} (h : p ∈ g.productions) :
      g.Yields p.rhs u → g.Yields form v → g.Yields (.nonterm p.lhs :: form) (u ++ v)

/-- No production has an empty right-hand side. -/
def NonErasing (g : Grammar) : Prop := ∀ p ∈ g.productions, p.rhs ≠ []

theorem WellFormed.nonErasing {g : Grammar} (h : g.WellFormed) : g.NonErasing := h.rhs_ne_nil

variable {g : Grammar}

/-! ## One symbol at a time -/

@[simp] theorem yields_nil_iff {w : List Char} : g.Yields [] w ↔ w = [] := by
  constructor
  · intro h
    cases h
    rfl
  · rintro rfl
    exact .nil

theorem yields_term_cons_iff {c : Char} {form : List Symbol} {w : List Char} :
    g.Yields (.term c :: form) w ↔ ∃ v, w = c :: v ∧ g.Yields form v := by
  constructor
  · intro h
    cases h with
    | term _ h => exact ⟨_, rfl, h⟩
  · rintro ⟨v, rfl, h⟩
    exact h.term c

theorem yields_nonterm_iff {a : NonTerm} {w : List Char} :
    g.Yields [.nonterm a] w ↔ ∃ p ∈ g.productions, p.lhs = a ∧ g.Yields p.rhs w := by
  constructor
  · intro h
    cases h with
    | nonterm hp hrhs hrest =>
      rw [yields_nil_iff] at hrest
      subst hrest
      exact ⟨_, hp, rfl, by simpa using hrhs⟩
  · rintro ⟨p, hp, rfl, h⟩
    simpa using Yields.nonterm hp h .nil

/-- A word yields itself. -/
theorem yields_map_term (w : List Char) : g.Yields (w.map .term) w := by
  induction w with
  | nil => exact .nil
  | cons c w ih => exact ih.term c

/-! ## Forms side by side -/

theorem Yields.append {form form' : List Symbol} {u v : List Char} (h : g.Yields form u)
    (h' : g.Yields form' v) : g.Yields (form ++ form') (u ++ v) := by
  induction h with
  | nil => exact h'
  | term c _ ih => exact ih.term c
  | nonterm hp hrhs _ _ ih =>
    rw [List.append_assoc]
    exact .nonterm hp hrhs ih

theorem yields_append_iff {form form' : List Symbol} {w : List Char} :
    g.Yields (form ++ form') w ↔ ∃ u v, w = u ++ v ∧ g.Yields form u ∧ g.Yields form' v := by
  constructor
  · intro h
    induction form generalizing w with
    | nil => exact ⟨[], w, rfl, .nil, h⟩
    | cons s form ih =>
      cases h with
      | term c h =>
        obtain ⟨u, v, rfl, hu, hv⟩ := ih h
        exact ⟨c :: u, v, rfl, hu.term c, hv⟩
      | nonterm hp hrhs h =>
        obtain ⟨u, v, rfl, hu, hv⟩ := ih h
        exact ⟨_ ++ u, v, (List.append_assoc ..).symm, .nonterm hp hrhs hu, hv⟩
  · rintro ⟨u, v, rfl, hu, hv⟩
    exact hu.append hv

/-- The first symbol of a form, taken apart from the others. -/
theorem yields_cons_iff {s : Symbol} {form : List Symbol} {w : List Char} :
    g.Yields (s :: form) w ↔ ∃ u v, w = u ++ v ∧ g.Yields [s] u ∧ g.Yields form v := by
  rw [← List.singleton_append, yields_append_iff]

/-- More productions yield more. -/
theorem Yields.mono {g' : Grammar} (hsub : ∀ p ∈ g.productions, p ∈ g'.productions)
    {form : List Symbol} {w : List Char} (h : g.Yields form w) : g'.Yields form w := by
  induction h with
  | nil => exact .nil
  | term c _ ih => exact ih.term c
  | nonterm hp _ _ ih ih' => exact .nonterm (hsub _ hp) ih ih'

/-! ## Yields and derivations -/

theorem Yields.derives {form : List Symbol} {w : List Char} (h : g.Yields form w) :
    g.Derives form (w.map .term) := by
  induction h with
  | nil => exact .refl _
  | term c _ ih => exact ih.append_left [.term c]
  | nonterm hp _ _ ih ih' =>
    rw [List.map_append]
    exact ((Derives.of_mem hp).trans ih).append ih'

/-- What a form yields after a rewriting, it yields before. -/
theorem Yields.of_rewrites {form result : List Symbol} {w : List Char}
    (h : g.Rewrites form result) (hw : g.Yields result w) : g.Yields form w := by
  obtain ⟨hp, front, back⟩ := h
  rw [List.append_assoc] at hw
  obtain ⟨u, _, rfl, hu, hrest⟩ := yields_append_iff.1 hw
  obtain ⟨v, v', rfl, hv, hv'⟩ := yields_append_iff.1 hrest
  exact hu.append (.nonterm hp hv hv')

theorem Yields.of_derives {form result : List Symbol} {w : List Char}
    (h : g.Derives form result) (hw : g.Yields result w) : g.Yields form w := by
  induction h with
  | refl => exact hw
  | tail _ step ih => exact ih (hw.of_rewrites step)

/-- A form yields the words that it derives. -/
theorem yields_iff_derives {form : List Symbol} {w : List Char} :
    g.Yields form w ↔ g.Derives form (w.map .term) :=
  ⟨Yields.derives, fun h ↦ (yields_map_term w).of_derives h⟩

theorem generates_iff_yields {a : NonTerm} {w : List Char} :
    g.Generates a w ↔ g.Yields [.nonterm a] w := yields_iff_derives.symm

theorem generates_iff {a : NonTerm} {w : List Char} :
    g.Generates a w ↔ ∃ p ∈ g.productions, p.lhs = a ∧ g.Yields p.rhs w := by
  rw [generates_iff_yields, yields_nonterm_iff]

/-! ## Lengths -/

/-- Without empty productions, a form is no longer than what it yields. -/
theorem Yields.length_le (hg : g.NonErasing) {form : List Symbol} {w : List Char}
    (h : g.Yields form w) : form.length ≤ w.length := by
  induction h with
  | nil => exact Nat.le_refl _
  | term c _ ih => exact Nat.succ_le_succ ih
  | nonterm hp _ _ ih ih' =>
    have hpos := List.length_pos_iff.2 (hg _ hp)
    simp only [List.length_cons, List.length_append]
    omega

/-- Without empty productions, the empty word is no member. -/
theorem NonErasing.not_member_nil (hg : g.NonErasing) : ¬g.Member [] := fun h ↦ by
  have := (generates_iff_yields.1 h).length_le hg
  simp at this

/-- Without empty productions, it goes without saying that a member is not empty. -/
theorem NonErasing.ne_nil_and_member_iff (hg : g.NonErasing) {w : List Char} :
    w ≠ [] ∧ g.Member w ↔ g.Member w := by
  rw [and_iff_right_iff_imp]
  rintro hmember rfl
  exact hg.not_member_nil hmember

end ContextFree.Grammar
