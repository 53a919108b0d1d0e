import ContextFree.Grammar.Basic

/-!
# Derivations

One step of a derivation replaces a non-terminal, anywhere in a form, by the right-hand side of one
of its productions.  A form derives another if some number of steps lead from the one to the other.
A non-terminal generates the words that it derives.
-/

namespace ContextFree

namespace Grammar

/-- One form becomes another by one production. -/
inductive Rewrites (g : Grammar) : List Symbol → List Symbol → Prop where
  | intro {p : Production} (h : p ∈ g.productions) (front back : List Symbol) :
      g.Rewrites (front ++ .nonterm p.lhs :: back) (front ++ p.rhs ++ back)

/-- One form becomes another by any number of productions. -/
inductive Derives (g : Grammar) : List Symbol → List Symbol → Prop where
  | refl (form : List Symbol) : g.Derives form form
  | tail {form middle result : List Symbol} :
      g.Derives form middle → g.Rewrites middle result → g.Derives form result

/-- A non-terminal derives a word. -/
def Generates (g : Grammar) (a : NonTerm) (w : List Char) : Prop :=
  g.Derives [.nonterm a] (w.map .term)

/-- The start symbol derives a word. -/
def Member (g : Grammar) (w : List Char) : Prop := g.Generates g.start w

variable {g : Grammar}

/-! ## Steps in a context -/

theorem Rewrites.append_left (front : List Symbol) {form result : List Symbol}
    (h : g.Rewrites form result) : g.Rewrites (front ++ form) (front ++ result) := by
  obtain ⟨hp, pre, post⟩ := h
  simpa using Rewrites.intro hp (front ++ pre) post

theorem Rewrites.append_right (back : List Symbol) {form result : List Symbol}
    (h : g.Rewrites form result) : g.Rewrites (form ++ back) (result ++ back) := by
  obtain ⟨hp, pre, post⟩ := h
  simpa using Rewrites.intro hp pre (post ++ back)

namespace Derives

theorem single {form result : List Symbol} (h : g.Rewrites form result) : g.Derives form result :=
  .tail (.refl _) h

theorem trans {form middle result : List Symbol} (h : g.Derives form middle)
    (h' : g.Derives middle result) : g.Derives form result := by
  induction h' with
  | refl => exact h
  | tail _ step ih => exact .tail ih step

theorem append_left (front : List Symbol) {form result : List Symbol}
    (h : g.Derives form result) : g.Derives (front ++ form) (front ++ result) := by
  induction h with
  | refl => exact .refl _
  | tail _ step ih => exact .tail ih (step.append_left front)

theorem append_right (back : List Symbol) {form result : List Symbol}
    (h : g.Derives form result) : g.Derives (form ++ back) (result ++ back) := by
  induction h with
  | refl => exact .refl _
  | tail _ step ih => exact .tail ih (step.append_right back)

/-- Two forms side by side derive what each derives. -/
theorem append {form form' result result' : List Symbol} (h : g.Derives form result)
    (h' : g.Derives form' result') : g.Derives (form ++ form') (result ++ result') :=
  (h.append_right form').trans (h'.append_left result)

/-- More productions derive more. -/
theorem mono {g' : Grammar} (hsub : ∀ p ∈ g.productions, p ∈ g'.productions)
    {form result : List Symbol} (h : g.Derives form result) : g'.Derives form result := by
  induction h with
  | refl => exact .refl _
  | tail _ step ih =>
    obtain ⟨hp, front, back⟩ := step
    exact .tail ih (.intro (hsub _ hp) front back)

/-- A non-terminal derives the right-hand side of each of its productions. -/
theorem of_mem {p : Production} (h : p ∈ g.productions) : g.Derives [.nonterm p.lhs] p.rhs := by
  simpa using single (Rewrites.intro h [] [])

end Derives

end Grammar

end ContextFree
