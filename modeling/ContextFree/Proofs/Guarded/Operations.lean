import ContextFree.Proofs.Grammar.Alternatives
import ContextFree.Recognition.Memory

/-!
# Guarded operations

Numbers live in words of 64 bits and lists in arrays, so an operation can go wrong: a result may not
fit into a word, and a place may lie outside an array.  A guarded operation answers only if it does
not go wrong, and a computation from guarded operations answers only if none of them goes wrong.

The other modules say what recognition does with guarded operations in place of all others, and show
that this is what recognition does: the guards never interfere.  This module is about the operations
and about loops of them.
-/

namespace ContextFree.Guarded

/-! ## Words -/

/-- The sum of two words, if it is a word. -/
def add? (m n : Nat) : Option Nat := if m + n < UInt64.size then some (m + n) else none

/-- The difference of two words, if it is not negative. -/
def sub? (m n : Nat) : Option Nat := if n ≤ m then some (m - n) else none

theorem add?_eq_some {m n : Nat} (h : m + n < UInt64.size) : add? m n = some (m + n) := if_pos h

theorem sub?_eq_some {m n : Nat} (h : n ≤ m) : sub? m n = some (m - n) := if_pos h

/-! ## Arrays -/

section Arrays

variable {α : Type}

/-- Changes the element at a place of an array, if the array has that place. -/
def modify? (xs : Array α) (i : Nat) (f : α → α) : Option (Array α) :=
  if i < xs.size then some (xs.modify i f) else none

theorem modify?_eq_some {xs : Array α} {i : Nat} (h : i < xs.size) (f : α → α) :
    modify? xs i f = some (xs.modify i f) := if_pos h

/-- Changing an element is putting the changed one in its place. -/
theorem modify?_const_eq_some {xs : Array α} {i : Nat} (h : i < xs.size) (f : α → α) :
    (modify? xs i fun _ ↦ f xs[i]) = some (xs.modify i f) := by
  rw [modify?_eq_some h]
  refine congrArg some (Array.ext (by simp) fun j hj hj' ↦ ?_)
  rw [Array.getElem_modify, Array.getElem_modify]
  split
  case isTrue heq => simp only [heq]
  case isFalse => rfl

end Arrays

/-! ## Loops -/

section Loops

variable {α β σ : Type} {l : List α}

/-- A loop whose passes all answer, as long as they find what the previous ones leave. -/
theorem foldlM_eq_some (Inv : σ → Prop) {f? : σ → α → Option σ} {f : σ → α → σ}
    (h : ∀ a ∈ l, ∀ s, Inv s → f? s a = some (f s a) ∧ Inv (f s a)) {s : σ} (hs : Inv s) :
    l.foldlM f? s = some (l.foldl f s) ∧ Inv (l.foldl f s) := by
  induction l generalizing s with
  | nil => exact ⟨rfl, hs⟩
  | cons a l ih =>
    obtain ⟨heq, hinv⟩ := h a (.head _) s hs
    rw [List.foldlM_cons, heq, List.foldl_cons]
    exact ih (fun b hb ↦ h b (.tail _ hb)) hinv

theorem mapM_eq_some {f? : α → Option β} {f : α → β} (h : ∀ a ∈ l, f? a = some (f a)) :
    l.mapM f? = some (l.map f) := by
  induction l with
  | nil => rfl
  | cons a l ih =>
    rw [List.mapM_cons, h a (.head _), ih fun b hb ↦ h b (.tail _ hb)]
    rfl

theorem filterAuxM_eq_some {p? : α → Option Bool} {p : α → Bool}
    (h : ∀ a ∈ l, p? a = some (p a)) (kept : List α) :
    l.filterAuxM p? kept = some ((l.filter p).reverse ++ kept) := by
  induction l generalizing kept with
  | nil => rfl
  | cons a l ih =>
    have ih' := ih fun b hb ↦ h b (.tail _ hb)
    rw [List.filterAuxM, h a (.head _)]
    cases hp : p a with
    | false => simpa [hp] using ih' kept
    | true => simpa [hp] using ih' (a :: kept)

theorem filterM_eq_some {p? : α → Option Bool} {p : α → Bool} (h : ∀ a ∈ l, p? a = some (p a)) :
    l.filterM p? = some (l.filter p) := by
  rw [List.filterM, filterAuxM_eq_some h]
  simp

theorem anyM_eq_some {p? : α → Option Bool} {p : α → Bool} (h : ∀ a ∈ l, p? a = some (p a)) :
    l.anyM p? = some (l.any p) := by
  induction l with
  | nil => rfl
  | cons a l ih =>
    rw [List.anyM_cons, h a (.head _), ih fun b hb ↦ h b (.tail _ hb)]
    cases hp : p a <;> simp [hp]

/-- The places of a list, in order, are those at which its elements stand. -/
theorem range_length_eq (l : List α) : List.range l.length = l.zipIdx.map Prod.snd := by
  rw [List.zipIdx_map_snd, List.range_eq_range']

end Loops

/-! ## Grammars -/

/-- The production of a number, if the grammar has it. -/
def production (g : Grammar) (p : ProdId) : Option Production := g.productions[p.index]?

/-- The productions of a non-terminal, as they lie in its slot. -/
def alternatives (g : Grammar) (a : NonTerm) : List ProdId := g.slots[a.index]?.getD []

variable {g : Grammar}

theorem production_eq {p : ProdId} (h : p.index < g.productions.length) :
    production g p = some (g.production p) := by
  rw [production, List.getElem?_eq_getElem h, Grammar.production_of_lt h]

theorem production_eq_of_mem {a : NonTerm} {p : ProdId} (h : p ∈ g.alternatives a) :
    production g p = some (g.production p) :=
  production_eq (Grammar.production_of_mem_alternatives h).1

theorem alternatives_eq (hg : g.WellFormed) (a : NonTerm) :
    alternatives g a = g.alternatives a := Grammar.getD_slots hg a

/-- A grammar and an input that lie in memory.  What lies in memory has addresses, half of all words
at most, so no list of it is longer than that. -/
structure InMemory (g : Grammar) (w : List Char) : Prop where
  size_lt : g.size < UInt64.size / 2
  rhs_lt : ∀ p ∈ g.productions, p.rhs.length < UInt64.size / 2
  length_lt : w.length < UInt64.size / 2

theorem lt_size_of_lt {n : Nat} (h : n < UInt64.size / 2) : n + 63 < UInt64.size := by
  have hsize : UInt64.size / 2 + 63 < UInt64.size := by decide
  omega

end ContextFree.Guarded
