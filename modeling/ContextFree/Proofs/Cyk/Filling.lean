import ContextFree.Cyk.Entries
import ContextFree.Proofs.Cyk.BinaryPart

/-!
# Filling a table

Filling the cell of a span tries productions one after the other and records those that apply.  A
production applies on the strength of other cells, of shorter spans, so what is recorded meanwhile
does not matter to it: the new entries of the cell are those whose production applied before.
`has_foldl_recordIf` says this for any such sequence of attempts.

Since spans come by length, the parts of a span are filled for good before the span is, and by
induction on the length a filled table contains exactly what the binary part covers.
-/

namespace ContextFree.Cyk

variable {g : Grammar} {w : List Char}

/-! ## Attempts on one cell -/

namespace Filling

/-- The table has a row of bits for `m` non-terminals in each cell of `n` positions. -/
structure Fits (n m : Nat) (f : Filling) : Prop where
  sized : f.table.Sized
  width_eq : f.table.width = n
  symbolCount_eq : f.table.symbolCount = m

/-- The entry is in the table. -/
def Has (f : Filling) (s : Span) (a : NonTerm) : Prop := f.table.contains s a = true

variable {n m : Nat} {f : Filling} {s : Span} {a : NonTerm}

theorem table_record (f : Filling) (s : Span) (a : NonTerm) (b : Backpointer) :
    (f.record s a b).table = f.table.record s a b := by
  rw [record]
  split <;> rfl

theorem Fits.record (h : f.Fits n m) (s : Span) (a : NonTerm) (b : Backpointer) :
    (f.record s a b).Fits n m := by
  refine ⟨?_, ?_, ?_⟩ <;> rw [table_record]
  · exact h.sized.record s a b
  · exact h.width_eq
  · exact h.symbolCount_eq

theorem has_record (h : f.Fits n m) (hs : s.Within n) (ha : a.index < m) (b : Backpointer)
    (s' : Span) (a' : NonTerm) : (f.record s a b).Has s' a' ↔ f.Has s' a' ∨ s' = s ∧ a = a' := by
  rw [Has, table_record, Table.contains_record h.sized (h.width_eq ▸ hs) (h.symbolCount_eq ▸ ha),
    Bool.or_eq_true, decide_eq_true_eq, Has, @eq_comm _ a a']

/-- One attempt on a cell: an entry is recorded if its condition holds. -/
def recordIf {α : Type} (s : Span) (holds : Filling → α → Bool) (lhs : α → NonTerm)
    (reason : α → Backpointer) (f : Filling) (x : α) : Filling :=
  if holds f x then f.record s (lhs x) (reason x) else f

/-- Attempts on one cell, whose conditions do not depend on that cell, add the entries whose
condition held at first. -/
theorem has_foldl_recordIf {α : Type} {holds : Filling → α → Bool} {lhs : α → NonTerm}
    {reason : α → Backpointer} (hs : s.Within n) {l : List α}
    (hholds : ∀ x ∈ l, ∀ f f' : Filling, (∀ s' a, s' ≠ s → (f'.Has s' a ↔ f.Has s' a)) →
      holds f' x = holds f x)
    (hl : ∀ x ∈ l, (lhs x).index < m) (h : f.Fits n m) :
    (l.foldl (recordIf s holds lhs reason) f).Fits n m ∧
      ∀ s' a, (l.foldl (recordIf s holds lhs reason) f).Has s' a ↔
        f.Has s' a ∨ s' = s ∧ ∃ x ∈ l, holds f x = true ∧ lhs x = a := by
  induction l generalizing f with
  | nil => simp [h]
  | cons x l ih =>
    rw [List.foldl_cons, recordIf]
    have ih' := fun {f : Filling} ↦ @ih f (fun y hy ↦ hholds y (.tail _ hy))
      (fun y hy ↦ hl y (.tail _ hy))
    split
    case isTrue hcond =>
      have hrecord := has_record h hs (hl x (.head _)) (reason x)
      have hsame : ∀ y ∈ l, holds (f.record s (lhs x) (reason x)) y = holds f y := fun y hy ↦
        hholds y (.tail _ hy) _ _ fun s' a hne ↦ by simp [hrecord, hne]
      obtain ⟨hfits, hhas⟩ := ih' (h.record s (lhs x) (reason x))
      refine ⟨hfits, fun s' a ↦ ?_⟩
      have hrest : (∃ y ∈ l, holds (f.record s (lhs x) (reason x)) y = true ∧ lhs y = a) ↔
          ∃ y ∈ l, holds f y = true ∧ lhs y = a :=
        exists_congr fun y ↦ and_congr_right fun hy ↦ by rw [hsame y hy]
      simp only [hhas, hrecord, hrest, List.mem_cons, or_and_right, exists_or, exists_eq_left,
        hcond, true_and, and_or_left, or_assoc]
    case isFalse hcond =>
      obtain ⟨hfits, hhas⟩ := ih' h
      refine ⟨hfits, fun s' a ↦ ?_⟩
      simp [hhas, hcond]

/-! ## One cell -/

/-- The cell of a position is filled by one sequence of attempts. -/
theorem fillPosition_eq (rules : List TerminalRule) (f : Filling) (c : Char) (i : Nat) :
    f.fillPosition rules (c, i) = rules.foldl
      (recordIf ⟨i, i⟩ (fun _ r ↦ decide (r.terminal = c)) (·.lhs) (.terminal ·.production)) f := by
  rw [fillPosition]
  congr 1
  funext f r
  simp only [recordIf, decide_eq_true_eq]

/-- The cell of a position receives the left-hand sides of the productions of its character. -/
theorem has_fillPosition {c : Char} {i : Nat} (hi : i < n) (hm : g.size = m) (h : f.Fits n m) :
    (f.fillPosition (terminalRules g) (c, i)).Fits n m ∧
      ∀ s a, (f.fillPosition (terminalRules g) (c, i)).Has s a ↔
        f.Has s a ∨ s = ⟨i, i⟩ ∧ ∃ r ∈ terminalRules g, r.terminal = c ∧ r.lhs = a := by
  rw [fillPosition_eq]
  refine (has_foldl_recordIf (n := n) ⟨Nat.le_refl i, hi⟩ (fun _ _ _ _ _ ↦ rfl)
    (fun r hr ↦ hm ▸ (mem_terminalRules.1 hr).1) h).imp_right fun hhas s a ↦ ?_
  simp only [hhas, decide_eq_true_eq]

/-- A production `A → B C` applies to a split of a span. -/
def appliesAt (s : Span) (f : Filling) (x : Nat × BinaryRule) : Bool :=
  f.table.contains ⟨s.first, x.1⟩ x.2.left && f.table.contains ⟨x.1 + 1, s.last⟩ x.2.right

/-- The splits of a span, each with all rules, in the order in which they are tried. -/
def attempts (rules : List BinaryRule) (s : Span) : List (Nat × BinaryRule) :=
  (List.range' s.first (s.last - s.first)).flatMap fun k ↦ rules.map (k, ·)

theorem mem_attempts {rules : List BinaryRule} {x : Nat × BinaryRule} :
    x ∈ attempts rules s ↔ s.first ≤ x.1 ∧ x.1 < s.last ∧ x.2 ∈ rules := by
  obtain ⟨k, r⟩ := x
  simp only [attempts, List.mem_flatMap, List.mem_range'_1, List.mem_map, Prod.mk.injEq]
  constructor
  · rintro ⟨k, ⟨hfirst, hlast⟩, r, hr, rfl, rfl⟩
    exact ⟨hfirst, by omega, hr⟩
  · rintro ⟨hfirst, hlast, hr⟩
    exact ⟨k, ⟨hfirst, by omega⟩, r, hr, rfl, rfl⟩

/-- The cell of a longer span is filled by one sequence of attempts. -/
theorem fillSpan_eq (rules : List BinaryRule) (f : Filling) (s : Span) :
    f.fillSpan rules s = (attempts rules s).foldl
      (recordIf s (appliesAt s) (·.2.lhs) fun x ↦ .binary x.2.production x.1) f := by
  simp only [attempts, List.foldl_flatMap, List.foldl_map]
  rfl

/-- Whether a production applies to a split of a span does not depend on the cell of the span. -/
theorem appliesAt_congr {rules : List BinaryRule} {x : Nat × BinaryRule}
    (hx : x ∈ attempts rules s) (f f' : Filling)
    (h : ∀ s' a, s' ≠ s → (f'.Has s' a ↔ f.Has s' a)) : appliesAt s f' x = appliesAt s f x := by
  obtain ⟨hfirst, hlast, -⟩ := mem_attempts.1 hx
  have hleft := h ⟨s.first, x.1⟩ x.2.left fun heq ↦ by
    have := congrArg Span.last heq
    simp only at this
    omega
  have hright := h ⟨x.1 + 1, s.last⟩ x.2.right fun heq ↦ by
    have := congrArg Span.first heq
    simp only at this
    omega
  rw [Has, Has, ← Bool.eq_iff_iff] at hleft hright
  rw [appliesAt, appliesAt, hleft, hright]

/-- The cell of a longer span receives what its splits give. -/
theorem has_fillSpan (hs : s.Within n) (hm : g.size = m) (h : f.Fits n m) :
    (f.fillSpan (binaryRules g) s).Fits n m ∧
      ∀ s' a, (f.fillSpan (binaryRules g) s).Has s' a ↔
        f.Has s' a ∨ s' = s ∧ ∃ k, s.first ≤ k ∧ k < s.last ∧ SplitsAt g f.Has s a k := by
  rw [fillSpan_eq]
  refine (has_foldl_recordIf hs (fun x hx ↦ appliesAt_congr hx)
    (fun x hx ↦ hm ▸ (mem_binaryRules.1 (mem_attempts.1 hx).2.2).1) h).imp_right fun hhas s' a ↦ ?_
  rw [hhas]
  refine or_congr_right (and_congr_right fun _ ↦ ?_)
  simp only [mem_attempts, appliesAt, Bool.and_eq_true, SplitsAt, Has, Prod.exists]
  constructor
  · rintro ⟨k, r, ⟨hfirst, hlast, hr⟩, ⟨hleft, hright⟩, hlhs⟩
    exact ⟨k, hfirst, hlast, r, hr, hleft, hright, hlhs⟩
  · rintro ⟨k, hfirst, hlast, r, hr, hleft, hright, hlhs⟩
    exact ⟨k, r, ⟨hfirst, hlast, hr⟩, ⟨hleft, hright⟩, hlhs⟩

/-! ## All cells of one length -/

theorem has_foldl_fillPosition {l : List (Char × Nat)} (hl : ∀ x ∈ l, x.2 < n) (hm : g.size = m)
    (h : f.Fits n m) :
    (l.foldl (fillPosition (terminalRules g)) f).Fits n m ∧
      ∀ s a, (l.foldl (fillPosition (terminalRules g)) f).Has s a ↔ f.Has s a ∨
        ∃ x ∈ l, s = ⟨x.2, x.2⟩ ∧ ∃ r ∈ terminalRules g, r.terminal = x.1 ∧ r.lhs = a := by
  induction l generalizing f with
  | nil => simp [h]
  | cons x l ih =>
    obtain ⟨hfits, hhas⟩ := has_fillPosition (c := x.1) (hl x (.head _)) hm h
    refine (ih (fun y hy ↦ hl y (.tail _ hy)) hfits).imp_right fun hrest s a ↦ ?_
    rw [List.foldl_cons, hrest, hhas]
    simp only [List.mem_cons, or_and_right, exists_or, exists_eq_left, or_assoc]

/-- Whether a span splits depends on the entries of shorter spans only. -/
theorem splitsAt_congr {In In' : Span → NonTerm → Prop} {k : Nat} (hfirst : s.first ≤ k)
    (hlast : k < s.last)
    (h : ∀ s' a, s'.length < s.length → (In s' a ↔ In' s' a)) :
    SplitsAt g In s a k ↔ SplitsAt g In' s a k := by
  refine exists_congr fun r ↦ and_congr_right fun _ ↦ ?_
  rw [h ⟨s.first, k⟩ r.left (by simp only [Span.length]; omega),
    h ⟨k + 1, s.last⟩ r.right (by simp only [Span.length]; omega)]

theorem has_foldl_fillSpan {length : Nat} {l : List Span}
    (hl : ∀ s ∈ l, s.Within n ∧ s.length = length) (hm : g.size = m) (h : f.Fits n m) :
    (l.foldl (fillSpan (binaryRules g)) f).Fits n m ∧
      ∀ s a, (l.foldl (fillSpan (binaryRules g)) f).Has s a ↔ f.Has s a ∨
        s ∈ l ∧ ∃ k, s.first ≤ k ∧ k < s.last ∧ SplitsAt g f.Has s a k := by
  induction l generalizing f with
  | nil => simp [h]
  | cons s l ih =>
    obtain ⟨hs, hlength⟩ := hl s (.head _)
    obtain ⟨hfits, hhas⟩ := has_fillSpan (g := g) hs hm h
    refine (ih (fun s' hs' ↦ hl s' (.tail _ hs')) hfits).imp_right fun hrest s' a ↦ ?_
    rw [List.foldl_cons, hrest, hhas, List.mem_cons, or_and_right, or_assoc]
    refine or_congr_right (or_congr ?_ (and_congr_right fun hs' ↦ ?_))
    · refine and_congr_right fun heq ↦ ?_
      rw [heq]
    · -- the cell just filled is as long as the others, so none of them is split into it
      refine exists_congr fun k ↦ and_congr_right fun hfirst ↦ and_congr_right fun hlast ↦ ?_
      refine splitsAt_congr hfirst hlast fun s'' a hshort ↦ ?_
      rw [hhas, or_iff_left]
      rintro ⟨rfl, -⟩
      rw [hlength, (hl s' (.tail _ hs')).2] at hshort
      exact Nat.lt_irrefl _ hshort

end Filling

end ContextFree.Cyk
