import ContextFree.Proofs.Cyk.Exact

/-!
# Reasons hold good

While a table is filled, the reason of an entry is replaced again and again.  Whichever comes last
holds good: it names a production that applies to the span, by entries of shorter spans that are in
the table.  For a reason is only recorded when these entries are there, and no entry is ever taken
out.
-/

namespace ContextFree.Cyk

variable {g : Grammar} {w : List Char}

/-- A reason for an entry holds good by the entries that `In` tells of. -/
inductive Supports (g : Grammar) (w : List Char) (In : Span → NonTerm → Prop) :
    Span → NonTerm → Backpointer → Prop where
  /-- The production `A → a` of the character at the position. -/
  | terminal {i : Nat} {r : TerminalRule} (hr : r ∈ terminalRules g)
      (hc : w[i]? = some r.terminal) :
      Supports g w In ⟨i, i⟩ r.lhs (.terminal r.production)
  /-- A production `A → B C` whose two symbols cover the two parts of the span. -/
  | binary {s : Span} {k : Nat} {r : BinaryRule} (hr : r ∈ binaryRules g) (hfirst : s.first ≤ k)
      (hlast : k < s.last) (hleft : In ⟨s.first, k⟩ r.left) (hright : In ⟨k + 1, s.last⟩ r.right) :
      Supports g w In s r.lhs (.binary r.production k)

theorem Supports.mono {In In' : Span → NonTerm → Prop} (hsub : ∀ s a, In s a → In' s a) {s : Span}
    {a : NonTerm} {b : Backpointer} (h : Supports g w In s a b) : Supports g w In' s a b := by
  cases h with
  | terminal hr hc => exact .terminal hr hc
  | binary hr hfirst hlast hleft hright =>
    exact .binary hr hfirst hlast (hsub _ _ hleft) (hsub _ _ hright)

theorem Supports.lhs_lt {In : Span → NonTerm → Prop} {s : Span} {a : NonTerm} {b : Backpointer}
    (h : Supports g w In s a b) : a.index < g.size := by
  cases h with
  | terminal hr => exact (mem_terminalRules.1 hr).1
  | binary hr => exact (mem_binaryRules.1 hr).1

/-- The entries of a table are the pairs that have a reason, and the reasons hold good. -/
structure Table.Justified (g : Grammar) (w : List Char) (t : Table) : Prop where
  isSome_iff : ∀ s a, (t.backpointer? s a).isSome = true ↔ t.contains s a = true
  supports : ∀ s a b, t.backpointer? s a = some b →
    Supports g w (fun s' a' ↦ t.contains s' a' = true) s a b

namespace Filling

variable {f : Filling}

/-! ## One entry -/

/-- What is true of the table at all times. -/
structure Invariant (g : Grammar) (w : List Char) (f : Filling) : Prop where
  fits : f.Fits w.length g.size
  justified : f.table.Justified g w

theorem invariant_empty (g : Grammar) (w : List Char) :
    Invariant g w ⟨.empty w.length g.size, []⟩ where
  fits := ⟨Table.sized_empty _ _, rfl, rfl⟩
  justified := ⟨by simp, by simp⟩

/-- An entry may be recorded for a reason that holds good by now. -/
theorem Invariant.record (h : f.Invariant g w) {s : Span} (hs : s.Within w.length) {a : NonTerm}
    {b : Backpointer} (hb : Supports g w f.Has s a b) : (f.record s a b).Invariant g w := by
  have hhas := has_record h.fits hs hb.lhs_lt b
  have hreason : ∀ s' a', (f.record s a b).table.backpointer? s' a' =
      if s' = s ∧ a' = a then some b else f.table.backpointer? s' a' := fun s' a' ↦ by
    rw [table_record, Table.backpointer?_record h.fits.sized (h.fits.width_eq ▸ hs)]
  have hgrows : ∀ s' a', f.Has s' a' → (f.record s a b).Has s' a' := fun s' a' hmem ↦
    (hhas s' a').2 (.inl hmem)
  refine ⟨h.fits.record s a b, fun s' a' ↦ ?_, fun s' a' b' hb' ↦ ?_⟩
  · rw [hreason]
    refine Iff.trans ?_ (hhas s' a').symm
    split
    case isTrue heq => simp [heq]
    case isFalse hne =>
      have hold : (f.table.backpointer? s' a').isSome = true ↔ f.Has s' a' :=
        h.justified.isSome_iff s' a'
      rw [hold, or_iff_left fun ⟨hs', ha'⟩ ↦ hne ⟨hs', ha'.symm⟩]
  · rw [hreason] at hb'
    split at hb'
    case isTrue heq =>
      obtain ⟨rfl, rfl⟩ := heq
      cases hb'
      exact hb.mono hgrows
    case isFalse => exact (h.justified.supports s' a' b' hb').mono hgrows

/-! ## All entries -/

theorem Invariant.fillPosition (h : f.Invariant g w) {c : Char} {i : Nat} (hc : w[i]? = some c) :
    (f.fillPosition (terminalRules g) (c, i)).Invariant g w := by
  refine List.foldlRecOn _ _ h fun f h r hr ↦ ?_
  split
  case isTrue heq =>
    have hi := (List.getElem?_eq_some_iff.1 hc).1
    exact h.record ⟨Nat.le_refl i, hi⟩ (.terminal hr (heq ▸ hc))
  case isFalse => exact h

theorem Invariant.fillSplit (h : f.Invariant g w) {s : Span} (hs : s.Within w.length) {k : Nat}
    (hfirst : s.first ≤ k) (hlast : k < s.last) :
    (f.fillSplit (binaryRules g) s k).Invariant g w := by
  refine List.foldlRecOn _ _ h fun f h r hr ↦ ?_
  split
  case isTrue hboth =>
    rw [Bool.and_eq_true] at hboth
    exact h.record hs (.binary hr hfirst hlast hboth.1 hboth.2)
  case isFalse => exact h

theorem Invariant.fillSpan (h : f.Invariant g w) {s : Span} (hs : s.Within w.length) :
    (f.fillSpan (binaryRules g) s).Invariant g w := by
  refine List.foldlRecOn _ _ h fun f h k hk ↦ ?_
  obtain ⟨hfirst, hlast⟩ := List.mem_range'_1.1 hk
  exact h.fillSplit hs hfirst (by omega)

end Filling

theorem mem_longSpans {n : Nat} {s : Span} (h : s ∈ longSpans n) : s.Within n := by
  obtain ⟨length, hlength, hs⟩ := List.mem_flatMap.1 h
  have hpos := Nat.lt_of_succ_le (Nat.le_of_succ_le (List.mem_range'_1.1 hlength).1)
  exact ((mem_spansOfLength hpos).1 hs).1

/-- In a filled table, every reason holds good. -/
theorem justified_fill (g : Grammar) (w : List Char) : (fill g w).table.Justified g w := by
  refine Filling.Invariant.justified (List.foldlRecOn _ _ ?_ fun f h s hs ↦
    h.fillSpan (mem_longSpans hs))
  refine List.foldlRecOn _ _ (Filling.invariant_empty g w) fun f h x hx ↦ ?_
  exact h.fillPosition (List.mem_zipIdx_iff_getElem?.1 hx)

end ContextFree.Cyk
