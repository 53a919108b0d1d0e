import ContextFree.BreadthFirst
import ContextFree.Language.SententialForm

/-!
# Searching leftmost derivations

What a grammar generates, found the slow way: a breadth-first search through the forms to which
leftmost rewritings lead from the start symbol.  No production is empty, so a form never shrinks,
and forms longer than the words in question need not be kept.
-/

namespace ContextFree.Grammar

open SententialForm

/-- The forms of at most `n` symbols that one leftmost rewriting makes of a form. -/
def rewritings (g : Grammar) (n : Nat) (form : List Symbol) : List (List Symbol) :=
  match leftmost? form with
  | none => []
  | some (front, a, back) =>
    ((g.alternatives a).map fun p ↦ front ++ (g.production p).rhs ++ back).filter (·.length ≤ n)

/-! ## Deciding membership on a budget -/

/-- The terminals that lead a form are those that lead a word, as far as both go. -/
def agrees : List Symbol → List Char → Bool
  | .term c :: form, d :: w => c = d && agrees form w
  | _, _ => true

/-- Expands forms until a word is found, nothing is left, or, after one form more than the budget,
something still is. -/
def searchFrom (g : Grammar) (w : List Char) :
    (budget : Nat) → Search (List Symbol) → Option Bool
  | budget, ⟨seen, queue⟩ =>
    match queue with
    | [] => some false
    | form :: rest =>
      if word? form = some w then some true
      else
        let st := Search.pushAll ⟨seen, rest⟩ ((g.rewritings w.length form).filter (agrees · w))
        match budget with
        | 0 => if st.queue = [] then some false else none
        | budget + 1 => g.searchFrom w budget st

/-- Whether the start symbol generates a word; nothing if that is open after as many expansions
as the budget allows.  One expansion is always made. -/
def generates? (g : Grammar) (w : List Char) (budget : Nat) : Option Bool :=
  if w = [] then some false
  else g.searchFrom w (budget - 1) (.start [.nonterm g.start])

/-! ## Enumerating the language -/

/-- The symbols that forms are made of: the start symbol and those of the right-hand sides. -/
def alphabet (g : Grammar) : List Symbol := .nonterm g.start :: g.productions.flatMap (·.rhs)

/-- There are finitely many forms of at most `n` symbols over an alphabet. -/
theorem exists_forms (symbols : List Symbol) (n : Nat) :
    ∃ l : List (List Symbol), ∀ form, form.length ≤ n ∧ (∀ s ∈ form, s ∈ symbols) → form ∈ l := by
  induction n with
  | zero => exact ⟨[[]], fun form h ↦ by simp [List.length_eq_zero_iff.1 (Nat.le_zero.1 h.1)]⟩
  | succ n ih =>
    obtain ⟨l, hl⟩ := ih
    refine ⟨[] :: symbols.flatMap fun s ↦ l.map (s :: ·), fun form h ↦ ?_⟩
    cases form with
    | nil => simp
    | cons s form =>
      refine .tail _ (List.mem_flatMap.2 ⟨s, h.2 s (.head _), List.mem_map.2 ⟨form, ?_, rfl⟩⟩)
      exact hl form ⟨Nat.le_of_succ_le_succ h.1, fun s hs ↦ h.2 s (.tail _ hs)⟩

/-- Rewritings stay within their length and their alphabet. -/
theorem mem_rewritings {g : Grammar} {n : Nat} {form result : List Symbol}
    (h : result ∈ g.rewritings n form) (hform : ∀ s ∈ form, s ∈ g.alphabet) :
    result.length ≤ n ∧ ∀ s ∈ result, s ∈ g.alphabet := by
  simp only [rewritings] at h
  split at h
  · simp at h
  · rename_i front a back heq
    obtain ⟨h, hlen⟩ := List.mem_filter.1 h
    obtain ⟨i, hi, rfl⟩ := List.mem_map.1 h
    obtain ⟨p, hp, -⟩ := mem_alternatives.1 hi
    obtain ⟨hlt, rfl⟩ := List.getElem?_eq_some_iff.1 hp
    refine ⟨by simpa using hlen, fun s hs ↦ ?_⟩
    rw [eq_of_leftmost? heq] at hform
    simp only [List.mem_append] at hs
    rcases hs with (hs | hs) | hs
    · exact hform s (List.mem_append_left _ hs)
    · rw [production_of_lt hlt] at hs
      exact .tail _ (List.mem_flatMap.2 ⟨_, List.getElem_mem hlt, hs⟩)
    · exact hform s (List.mem_append_right _ (.tail _ hs))

/-- Rewritings of at most `n` symbols stay among finitely many forms. -/
def rewritingEnclosure (g : Grammar) (n : Nat) : Enclosure (g.rewritings n) where
  Inside form := form.length ≤ max n 1 ∧ ∀ s ∈ form, s ∈ g.alphabet
  finite := exists_forms g.alphabet (max n 1)
  closed h hb :=
    have h' := mem_rewritings hb h.2
    ⟨Nat.le_trans h'.1 (Nat.le_max_left _ _), h'.2⟩

/-- The forms of at most `n` symbols to which leftmost rewritings lead from the start symbol,
preceded by the start symbol itself. -/
def reachableForms (g : Grammar) (n : Nat) : List (List Symbol) :=
  breadthFirst (g.rewritingEnclosure n) [.nonterm g.start]
    ⟨Nat.le_max_right _ _, fun s hs ↦ by simp_all [alphabet]⟩

/-- The words of at most `n` characters that the start symbol generates, in ascending order. -/
def sentences (g : Grammar) (n : Nat) : List String :=
  (((g.reachableForms n).filterMap word?).map String.ofList).mergeSort (· ≤ ·)

end ContextFree.Grammar
