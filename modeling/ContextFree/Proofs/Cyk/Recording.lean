import ContextFree.Proofs.Cyk.Filling
import Mathlib.Data.List.Induction

/-!
# What a row of recordings leaves

A table keeps each entry twice: as a bit, in one array of words for all cells, and as a reason, in a
list of its cell.  The two never tell different things.  After any row of recordings the table has
the pairs that were recorded, each with the reason that was recorded last, and a further recording
is noticed at its own pair only (`recorded_exact`).

What one recording does is known without addresses (`contains_record` and `backpointer?_record`), so
the induction on the row, from its end, never meets a word or a cell.
-/

namespace ContextFree.Cyk

/-- A pair of a span and a non-terminal, and a reason for it. -/
structure Recording where
  span : Span
  symbol : NonTerm
  reason : Backpointer
deriving DecidableEq, Repr

namespace Recording

/-- The recording is one of the pair. -/
def IsOf (r : Recording) (s : Span) (a : NonTerm) : Prop := r.span = s ∧ r.symbol = a

instance (r : Recording) (s : Span) (a : NonTerm) : Decidable (r.IsOf s a) :=
  inferInstanceAs (Decidable (_ ∧ _))

/-- The pair has a place in the tables of `n` positions and `m` non-terminals. -/
def Within (r : Recording) (n m : Nat) : Prop := r.span.Within n ∧ r.symbol.index < m

instance (r : Recording) (n m : Nat) : Decidable (r.Within n m) :=
  inferInstanceAs (Decidable (_ ∧ _))

end Recording

variable {n m : Nat} {rs : List Recording} {r : Recording}

/-- The reason recorded last for a pair. -/
def lastReason? (rs : List Recording) (s : Span) (a : NonTerm) : Option Backpointer :=
  (rs.filter (·.IsOf s a)).getLast?.map (·.reason)

theorem lastReason?_concat (rs : List Recording) (r : Recording) (s : Span) (a : NonTerm) :
    lastReason? (rs ++ [r]) s a = if r.IsOf s a then some r.reason else lastReason? rs s a := by
  rw [lastReason?, List.filter_append]
  split
  case isTrue h => simp [h]
  case isFalse h => simp [h, lastReason?]

theorem isSome_lastReason?_iff {s : Span} {a : NonTerm} :
    (lastReason? rs s a).isSome = true ↔ ∃ r ∈ rs, r.IsOf s a := by
  simp [lastReason?]

namespace Table

theorem mem_symbols {t : Table} {s : Span} {a : NonTerm} :
    a ∈ t.symbols s ↔ a.index < t.symbolCount ∧ t.contains s a = true := by
  obtain ⟨i⟩ := a
  simp [symbols]

/-- Symbols are listed in the order of their numbers, each once. -/
theorem pairwise_symbols (t : Table) (s : Span) : (t.symbols s).Pairwise (·.index < ·.index) := by
  rw [symbols]
  exact List.Pairwise.filter _ (List.pairwise_map.2 List.pairwise_lt_range)

/-- The entries of the table are the recorded pairs, and their reasons those recorded last. -/
structure Holds (rs : List Recording) (t : Table) : Prop where
  contains_iff : ∀ s a, t.contains s a = true ↔ ∃ r ∈ rs, r.IsOf s a
  backpointer?_eq : ∀ s a, t.backpointer? s a = lastReason? rs s a

end Table

namespace Filling

open Table (Holds)

variable {f : Filling}

/-- Carries out one recording. -/
def carryOut (f : Filling) (r : Recording) : Filling := f.record r.span r.symbol r.reason

/-- Recordings carried out one after the other, from a table of `n` positions and `m` non-terminals
without any entry. -/
def recorded (n m : Nat) (rs : List Recording) : Filling :=
  rs.foldl carryOut ⟨.empty n m, []⟩

theorem fits_empty (n m : Nat) : Fits n m ⟨.empty n m, []⟩ :=
  ⟨Table.sized_empty n m, rfl, rfl⟩

theorem holds_empty (n m : Nat) : Holds [] (Table.empty n m) where
  contains_iff := by simp
  backpointer?_eq := by simp [lastReason?]

theorem Fits.carryOut (h : f.Fits n m) (r : Recording) : (f.carryOut r).Fits n m :=
  h.record r.span r.symbol r.reason

theorem has_carryOut (h : f.Fits n m) (hr : r.Within n m) (s : Span) (a : NonTerm) :
    (f.carryOut r).Has s a ↔ f.Has s a ∨ r.IsOf s a := by
  rw [Filling.carryOut, has_record h hr.1 hr.2, Recording.IsOf, @eq_comm _ s]

theorem backpointer?_carryOut (h : f.Fits n m) (hr : r.Within n m) (s : Span) (a : NonTerm) :
    (f.carryOut r).table.backpointer? s a =
      if r.IsOf s a then some r.reason else f.table.backpointer? s a := by
  rw [Filling.carryOut, table_record, Table.backpointer?_record h.sized (h.width_eq ▸ hr.1)]
  simp only [Recording.IsOf, @eq_comm _ r.span, @eq_comm _ r.symbol]

/-- One more recording is one more pair, and its reason the last one. -/
theorem holds_carryOut (h : f.Fits n m) (hr : r.Within n m) (hf : Holds rs f.table) :
    Holds (rs ++ [r]) (f.carryOut r).table where
  contains_iff s a := by
    rw [← Filling.Has, has_carryOut h hr, Filling.Has, hf.contains_iff]
    simp [or_and_right, exists_or]
  backpointer?_eq s a := by
    rw [backpointer?_carryOut h hr, lastReason?_concat, hf.backpointer?_eq]

theorem holds_recorded (h : ∀ r ∈ rs, r.Within n m) :
    (recorded n m rs).Fits n m ∧ Holds rs (recorded n m rs).table := by
  induction rs using List.reverseRecOn with
  | nil => exact ⟨fits_empty n m, holds_empty n m⟩
  | append_singleton rs r ih =>
    obtain ⟨hfits, hholds⟩ := ih fun r' hr' ↦ h r' (List.mem_append_left _ hr')
    have hr := h r (List.mem_append_right _ (.head _))
    rw [recorded, List.foldl_append]
    exact ⟨hfits.carryOut r, holds_carryOut hfits hr hholds⟩

/-- What a table tells after any row of recordings, all within its bounds, of any pair of a span and
a non-terminal, within them or not.  It has the pair just if the pair was recorded, and keeps the
reason recorded last, so there is an entry just if there is a reason; the symbols of a span are
listed in ascending order; and whatever is recorded next, the answers for other pairs stay. -/
theorem recorded_exact (h : ∀ r ∈ rs, r.Within n m) :
    let t := (recorded n m rs).table
    (∀ s a, t.contains s a = true ↔ ∃ r ∈ rs, r.IsOf s a) ∧
      (∀ s a, t.backpointer? s a = (rs.filter (·.IsOf s a)).getLast?.map (·.reason)) ∧
      (∀ s a, t.contains s a = (t.backpointer? s a).isSome) ∧
      (∀ s, (t.symbols s).Pairwise (·.index < ·.index) ∧
        ∀ a, a ∈ t.symbols s ↔ ∃ r ∈ rs, r.IsOf s a) ∧
      ∀ r, r.Within n m → ∀ s a, ¬r.IsOf s a →
        let t' := ((recorded n m rs).carryOut r).table
        t'.contains s a = t.contains s a ∧ t'.backpointer? s a = t.backpointer? s a ∧
          (a ∈ t'.symbols s ↔ a ∈ t.symbols s) := by
  intro t
  obtain ⟨hfits, hholds⟩ := holds_recorded h
  have hcount : t.symbolCount = m := hfits.symbolCount_eq
  refine ⟨hholds.contains_iff, hholds.backpointer?_eq, fun s a ↦ ?_, fun s ↦ ?_,
    fun r hr s a hne ↦ ?_⟩
  · rw [Bool.eq_iff_iff, hholds.contains_iff, hholds.backpointer?_eq, isSome_lastReason?_iff]
  · refine ⟨Table.pairwise_symbols t s, fun a ↦ ?_⟩
    rw [Table.mem_symbols, hholds.contains_iff, hcount]
    refine and_iff_right_of_imp ?_
    rintro ⟨r, hr, -, rfl⟩
    exact (h r hr).2
  · intro t'
    have hcount' : t'.symbolCount = m := (hfits.carryOut r).symbolCount_eq
    have hcontains : t'.contains s a = t.contains s a := by
      rw [Bool.eq_iff_iff]
      exact (has_carryOut hfits hr s a).trans (or_iff_left hne)
    refine ⟨hcontains, ?_, ?_⟩
    · rw [backpointer?_carryOut hfits hr, if_neg hne]
    · rw [Table.mem_symbols, Table.mem_symbols, hcontains, hcount, hcount']

/-- Of 70 non-terminals, numbers 3 and 67 have the same bit, in the two words of a cell.  Number 67
is recorded twice on one span, and then number 3 on the same span. -/
theorem recorded_exact_two_words :
    let s : Span := ⟨0, 1⟩
    let rs : List Recording := [⟨s, ⟨67⟩, .binary ⟨4⟩ 0⟩, ⟨⟨1, 1⟩, ⟨3⟩, .terminal ⟨2⟩⟩,
      ⟨s, ⟨67⟩, .binary ⟨1⟩ 0⟩]
    let r : Recording := ⟨s, ⟨3⟩, .binary ⟨5⟩ 0⟩
    let t := (recorded 2 70 rs).table
    let t' := ((recorded 2 70 rs).carryOut r).table
    (∀ r ∈ rs, r.Within 2 70) ∧ t.contains s ⟨67⟩ = true ∧ t.contains s ⟨3⟩ = false ∧
      t.backpointer? s ⟨67⟩ = some (.binary ⟨1⟩ 0) ∧ r.Within 2 70 ∧ ¬r.IsOf s ⟨67⟩ ∧
      t'.backpointer? s ⟨67⟩ = some (.binary ⟨1⟩ 0) := by
  intro s rs r t t'
  have hwithin : ∀ r ∈ rs, r.Within 2 70 := by decide
  have hentry : ∃ r ∈ rs, r.IsOf s ⟨67⟩ := by decide
  have hnone : ¬∃ r ∈ rs, r.IsOf s ⟨3⟩ := by decide
  have hr : r.Within 2 70 := by decide
  have hne : ¬r.IsOf s ⟨67⟩ := by decide
  obtain ⟨hcontains, hreason, -, -, hother⟩ := recorded_exact hwithin
  have hfalse : t.contains s ⟨3⟩ = false := by
    rw [← Bool.not_eq_true, hcontains]
    exact hnone
  obtain ⟨-, hsame, -⟩ := hother r hr s ⟨67⟩ hne
  exact ⟨hwithin, (hcontains s ⟨67⟩).2 hentry, hfalse, hreason s ⟨67⟩, hr, hne,
    hsame.trans (hreason s ⟨67⟩)⟩

end Filling

end ContextFree.Cyk
