import ContextFree.Grammar.Basic

/-!
# Sentential forms

A form is a list of symbols.  Its leftmost non-terminal splits it into terminals, the non-terminal
itself, and the rest; a form without one is a word.
-/

namespace ContextFree.SententialForm

/-- What stands before the leftmost non-terminal, that non-terminal, and what stands after it. -/
def leftmost? : List Symbol → Option (List Symbol × NonTerm × List Symbol)
  | [] => none
  | .nonterm a :: form => some ([], a, form)
  | .term c :: form => (leftmost? form).map fun (front, a, back) ↦ (.term c :: front, a, back)

/-- The word that a form without non-terminals is. -/
def word? (form : List Symbol) : Option (List Char) := form.mapM Symbol.term?

@[simp] theorem leftmost?_nil : leftmost? [] = none := rfl

@[simp] theorem leftmost?_nonterm (a : NonTerm) (form : List Symbol) :
    leftmost? (.nonterm a :: form) = some ([], a, form) := rfl

/-- The three parts make up the form. -/
theorem eq_of_leftmost? {form front back : List Symbol} {a : NonTerm}
    (h : leftmost? form = some (front, a, back)) : form = front ++ .nonterm a :: back := by
  induction form generalizing front with
  | nil => simp at h
  | cons s form ih =>
    cases s with
    | nonterm b => simp only [leftmost?_nonterm, Option.some.injEq, Prod.mk.injEq] at h; simp [← h]
    | term c =>
      obtain ⟨⟨front', a', back'⟩, h', heq⟩ := Option.map_eq_some_iff.1 h
      simp only [Prod.mk.injEq] at heq
      obtain ⟨rfl, rfl, rfl⟩ := heq
      simp [ih h']

/-! ## The non-terminals of a form -/

/-- The non-terminals of a form are among the first `n`. -/
def Below (n : Nat) (form : List Symbol) : Prop := ∀ a, .nonterm a ∈ form → a.index < n

variable {n : Nat} {a : NonTerm} {form : List Symbol}

theorem Below.mono {n' : Nat} (h : Below n form) (hle : n ≤ n') : Below n' form :=
  fun a ha ↦ Nat.lt_of_lt_of_le (h a ha) hle

theorem below_nil : Below n [] := nofun

theorem below_nonterm_cons :
    Below n (.nonterm a :: form) ↔ a.index < n ∧ Below n form := by
  simp [Below]

theorem below_size_iff {g : Grammar} : Below g.size form ↔ ∀ s ∈ form, g.Owns s := by
  constructor
  · rintro h s hs a heq
    cases s with
    | term c => cases heq
    | nonterm b =>
      cases heq
      exact h _ hs
  · exact fun h a ha ↦ h _ ha a rfl

end ContextFree.SententialForm
