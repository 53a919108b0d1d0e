import ContextFree.Cyk.Chart
import ContextFree.Proofs.Language.Slice
import ContextFree.Proofs.Language.Yield

/-!
# The binary part of a grammar

Bottom-up recognition sees only the productions of the two binary shapes.  What they derive on a
span is decided by the span alone: on one position by a production `A → a`, on more than one by a
production `A → B C` and a place where the span is split.
-/

namespace ContextFree

/-- The grammar with the productions `A → a` and `A → B C` only. -/
def Grammar.binaryPart (g : Grammar) : Grammar :=
  { g with productions := g.productions.filter (·.isBinary) }

variable {g : Grammar}

namespace Grammar

theorem mem_binaryPart {p : Production} :
    p ∈ g.binaryPart.productions ↔ p ∈ g.productions ∧ p.isBinary = true := List.mem_filter

theorem nonErasing_binaryPart (g : Grammar) : g.binaryPart.NonErasing := fun p hp ↦ by
  rcases Production.isBinary_iff.1 (mem_binaryPart.1 hp).2 with ⟨c, h⟩ | ⟨b, c, h⟩ <;> simp [h]

/-- What the binary part derives, the grammar derives. -/
theorem Generates.of_binaryPart {a : NonTerm} {w : List Char} (h : g.binaryPart.Generates a w) :
    g.Generates a w := by
  rw [generates_iff_yields] at h ⊢
  exact h.mono fun _ hp ↦ (mem_binaryPart.1 hp).1

/-- A grammar in binary form is its own binary part. -/
theorem binaryPart_eq_self (h : g.isBinary = true) : g.binaryPart = g := by
  rw [binaryPart, List.filter_eq_self.2 (List.all_eq_true.1 h)]

end Grammar

namespace Cyk

/-! ## The rules of a grammar -/

/-- The rule of a production, if that has the shape `A → a`. -/
def TerminalRule.of? (a : NonTerm) (p : ProdId) : List Symbol → Option TerminalRule
  | [.term c] => some ⟨a, p, c⟩
  | _ => none

/-- The rule of a production, if that has the shape `A → B C`. -/
def BinaryRule.of? (a : NonTerm) (p : ProdId) : List Symbol → Option BinaryRule
  | [.nonterm b, .nonterm c] => some ⟨a, p, b, c⟩
  | _ => none

theorem TerminalRule.of?_eq_some {a : NonTerm} {p : ProdId} {rhs : List Symbol} {r : TerminalRule} :
    of? a p rhs = some r ↔ r.lhs = a ∧ r.production = p ∧ rhs = [.term r.terminal] := by
  obtain ⟨a', p', c⟩ := r
  rw [of?.eq_def]
  split <;> simp_all [eq_comm]

theorem BinaryRule.of?_eq_some {a : NonTerm} {p : ProdId} {rhs : List Symbol} {r : BinaryRule} :
    of? a p rhs = some r ↔
      r.lhs = a ∧ r.production = p ∧ rhs = [.nonterm r.left, .nonterm r.right] := by
  obtain ⟨a', p', b, c⟩ := r
  rw [of?.eq_def]
  split <;> simp_all [eq_comm]

theorem terminalRules_eq (g : Grammar) :
    terminalRules g = g.nonterms.flatMap fun a ↦ (g.alternatives a).filterMap fun p ↦
      TerminalRule.of? a p (g.production p).rhs := rfl

theorem binaryRules_eq (g : Grammar) :
    binaryRules g = g.nonterms.flatMap fun a ↦ (g.alternatives a).filterMap fun p ↦
      BinaryRule.of? a p (g.production p).rhs := rfl

theorem mem_terminalRules {r : TerminalRule} : r ∈ terminalRules g ↔
    r.lhs.index < g.size ∧ r.production ∈ g.alternatives r.lhs ∧
      (g.production r.production).rhs = [.term r.terminal] := by
  simp only [terminalRules_eq, List.mem_flatMap, List.mem_filterMap, Grammar.mem_nonterms,
    TerminalRule.of?_eq_some]
  constructor
  · rintro ⟨a, ha, p, hp, rfl, rfl, hrhs⟩
    exact ⟨ha, hp, hrhs⟩
  · rintro ⟨ha, hp, hrhs⟩
    exact ⟨_, ha, _, hp, rfl, rfl, hrhs⟩

theorem mem_binaryRules {r : BinaryRule} : r ∈ binaryRules g ↔
    r.lhs.index < g.size ∧ r.production ∈ g.alternatives r.lhs ∧
      (g.production r.production).rhs = [.nonterm r.left, .nonterm r.right] := by
  simp only [binaryRules_eq, List.mem_flatMap, List.mem_filterMap, Grammar.mem_nonterms,
    BinaryRule.of?_eq_some]
  constructor
  · rintro ⟨a, ha, p, hp, rfl, rfl, hrhs⟩
    exact ⟨ha, hp, hrhs⟩
  · rintro ⟨ha, hp, hrhs⟩
    exact ⟨_, ha, _, hp, rfl, rfl, hrhs⟩

/-! ## Deriving a span -/

/-- The binary part has the non-terminal derive the input on a span. -/
def Covers (g : Grammar) (w : List Char) (s : Span) (a : NonTerm) : Prop :=
  g.binaryPart.Yields [.nonterm a] (slice w s.first (s.last + 1))

variable {w : List Char} {s : Span} {a : NonTerm}

theorem covers_iff_exists_production : Covers g w s a ↔
    ∃ p ∈ g.productions, p.isBinary = true ∧ p.lhs = a ∧
      g.binaryPart.Yields p.rhs (slice w s.first (s.last + 1)) := by
  simp only [Covers, Grammar.yields_nonterm_iff, Grammar.mem_binaryPart, and_assoc]

/-- A span of one position is derived by a production `A → a`. -/
theorem covers_position_iff (hg : g.WellFormed) {i : Nat} {c : Char} (hc : w[i]? = some c) :
    Covers g w ⟨i, i⟩ a ↔ ∃ r ∈ terminalRules g, r.terminal = c ∧ r.lhs = a := by
  rw [covers_iff_exists_production]
  simp only [slice_singleton hc]
  constructor
  · rintro ⟨p, hp, hbinary, rfl, hyields⟩
    rcases Production.isBinary_iff.1 hbinary with ⟨d, hrhs⟩ | ⟨b, d, hrhs⟩
    · rw [hrhs, Grammar.yields_term_cons_iff] at hyields
      obtain ⟨v, heq, -⟩ := hyields
      obtain ⟨rfl, -⟩ := List.cons.inj heq
      obtain ⟨i, hi, rfl⟩ := Grammar.exists_mem_alternatives hp
      exact ⟨⟨_, i, c⟩, mem_terminalRules.2 ⟨hg.lhs_lt _ hp, hi, hrhs⟩, rfl, rfl⟩
    · -- two symbols account for two characters at least
      have hlen := hyields.length_le (Grammar.nonErasing_binaryPart g)
      simp [hrhs] at hlen
  · rintro ⟨r, hr, rfl, rfl⟩
    obtain ⟨-, hp, hrhs⟩ := mem_terminalRules.1 hr
    obtain ⟨-, hmem, hlhs⟩ := Grammar.production_of_mem_alternatives hp
    refine ⟨_, hmem, Production.isBinary_iff.2 (.inl ⟨_, hrhs⟩), hlhs, ?_⟩
    rw [hrhs]
    exact .term _ .nil

/-- Split after position `k`, the span is derived by a production `A → B C` of which `B` derives the
first part and `C` the second one. -/
def SplitsAt (g : Grammar) (In : Span → NonTerm → Prop) (s : Span) (a : NonTerm) (k : Nat) : Prop :=
  ∃ r ∈ binaryRules g, In ⟨s.first, k⟩ r.left ∧ In ⟨k + 1, s.last⟩ r.right ∧ r.lhs = a

/-- A longer span is derived by a production `A → B C`. -/
theorem covers_iff_exists_split (hg : g.WellFormed) (hlt : s.first < s.last)
    (hlast : s.last < w.length) :
    Covers g w s a ↔ ∃ k, s.first ≤ k ∧ k < s.last ∧ SplitsAt g (Covers g w) s a k := by
  rw [covers_iff_exists_production]
  constructor
  · rintro ⟨p, hp, hbinary, rfl, hyields⟩
    rcases Production.isBinary_iff.1 hbinary with ⟨d, hrhs⟩ | ⟨b, c, hrhs⟩
    · -- one terminal accounts for one character only
      rw [hrhs] at hyields
      obtain ⟨v, heq, hv⟩ := Grammar.yields_term_cons_iff.1 hyields
      rw [Grammar.yields_nil_iff] at hv
      have hlen := congrArg List.length heq
      rw [length_slice w _ hlast, hv, List.length_singleton] at hlen
      omega
    · rw [hrhs, Grammar.yields_cons_iff] at hyields
      obtain ⟨u, v, heq, hu, hv⟩ := hyields
      obtain ⟨m, hm, -, hmlast, rfl, rfl⟩ :=
        exists_split_of_slice_eq_append (Nat.le_succ_of_le (Nat.le_of_lt hlt)) hlast heq
      have hposu := hu.length_le (Grammar.nonErasing_binaryPart g)
      have hposv := hv.length_le (Grammar.nonErasing_binaryPart g)
      rw [length_slice w _ hlast] at hposv
      simp only [List.length_singleton] at hposu hposv
      obtain ⟨k, rfl⟩ : ∃ k, m = k + 1 := ⟨m - 1, by omega⟩
      obtain ⟨i, hi, rfl⟩ := Grammar.exists_mem_alternatives hp
      exact ⟨k, by omega, by omega, ⟨_, i, b, c⟩,
        mem_binaryRules.2 ⟨hg.lhs_lt _ hp, hi, hrhs⟩, hu, hv, rfl⟩
  · rintro ⟨k, hfirst, hk, r, hr, hleft, hright, rfl⟩
    obtain ⟨-, hp, hrhs⟩ := mem_binaryRules.1 hr
    obtain ⟨-, hmem, hlhs⟩ := Grammar.production_of_mem_alternatives hp
    refine ⟨_, hmem, Production.isBinary_iff.2 (.inr ⟨_, _, hrhs⟩), hlhs, ?_⟩
    have hfirst' := Nat.le_succ_of_le hfirst
    rw [hrhs, ← slice_append_slice w hfirst' (Nat.succ_le_succ (Nat.le_of_lt hk))]
    exact Grammar.yields_cons_iff.2 ⟨_, _, rfl, hleft, hright⟩

end Cyk

end ContextFree
