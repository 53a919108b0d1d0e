import ContextFree.Proofs.Earley.Moment
import ContextFree.Proofs.Earley.Truncation
import Mathlib.Order.WellFounded

/-!
# Runs end

A walk goes over a set that grows meanwhile, so its place alone does not tell that it ends.  But
without empty productions a set can hold so many items and no more, whatever the limit
(`capacity`): an item has read nothing just if it begins at the position of the set, and otherwise
its dot and its origin are two numbers below a bound.  As a walk takes no item twice, it ends.

For the same reason the sets before the one that is walked over are finished.  A complete item has
read something, so it looks back to such a set.
-/

namespace ContextFree.Earley

open Run

variable {g : Grammar} {w : List Char} {limit : Nat}

/-! ## Sets at all moments -/

/-- The set of a position holds items of the grammar, each once, and not more than there can be. -/
structure ItemSet.WellFormed (g : Grammar) (i : Nat) (s : ItemSet) : Prop where
  nodup : s.items.toList.Nodup
  contains_iff : ∀ item, s.contains item = true ↔ item ∈ s.items
  production_lt : ∀ item ∈ s.items, item.production.index < g.productions.length
  dot_le : ∀ item ∈ s.items, item.dot ≤ (g.production item.production).rhs.length
  origin_le : ∀ item ∈ s.items, item.origin ≤ i
  dot_eq_zero_iff : ∀ item ∈ s.items, item.dot = 0 ↔ item.origin = i
  origin_lt : ∀ item ∈ s.items, item.IsComplete g → item.origin < i
  size_le : s.size ≤ g.productions.length + i * g.symbolCount

theorem Run.Invariant.wellFormed_set (hg : g.NonErasing) {run : Run}
    (inv : Invariant g w limit run) {i : Nat} (hi : i ≤ w.length) : (run.set i).WellFormed g i where
  nodup := (inv.coherent i hi).nodup
  contains_iff := (inv.coherent i hi).contains_iff
  production_lt _ h := (inv.reads h).production_lt
  dot_le _ h := (inv.reads h).dot_le
  origin_le _ h := (inv.reads h).origin_le
  dot_eq_zero_iff _ h := (inv.reads h).dot_eq_zero_iff hg
  origin_lt _ h hcomplete := (inv.reads h).origin_lt hg (Item.next?_eq_none_iff.2 hcomplete)
  size_le := inv.size_le_capacity hg hi

namespace Moment

variable {m m' : Moment}

/-- The sets before the one that is walked over do not change any more. -/
theorem Sound.set_eq (h : m.Sound g w limit) {i j : Nat} (hi : m.started = i + 1) (hj : j < i)
    (hproceeds : Proceeds g w limit m m') : m'.run.set j = m.run.set j := by
  have hreaches := h.reaches_of_proceeds hproceeds
  rw [hi, Nat.add_sub_cancel] at hreaches
  exact hreaches.set_eq hj

/-! ## Termination -/

/-- What is ahead of a moment: the positions that are not started, the items that the walk could
still take, and the requests that are pending. -/
def ahead (g : Grammar) (w : List Char) (m : Moment) : Nat × Nat × Nat :=
  (w.length + 1 - m.started, capacity g w.length - m.place, m.pending.length)

/-- A move leaves less ahead: it starts a position, or takes an item, or settles a request. -/
theorem Sound.ahead_lt (hg : g.NonErasing) (h : m.Sound g w limit) (hmoves : Moves g w limit m m') :
    Prod.Lex (· < ·) (Prod.Lex (· < ·) (· < ·)) (m'.ahead g w) (m.ahead g w) := by
  cases hmoves with
  | push => exact .right _ (.right _ (Nat.lt_succ_self _))
  | @take run i place item hitem =>
    have hplace : place < (run.set i).size := (Array.getElem?_eq_some_iff.1 hitem).1
    have hle := h.invariant.size_le_capacity_length hg i
    exact .right _ (.left _ _ (Nat.sub_succ_lt_self _ _ (Nat.lt_of_lt_of_le hplace hle)))
  | turn hi => exact .left _ _ (Nat.sub_succ_lt_self _ _ (Nat.lt_succ_of_le hi))

/-- No run goes on forever. -/
theorem not_exists_moves (hg : g.NonErasing) (w : List Char) (limit : Nat) :
    ¬∃ f : Nat → Moment, f 0 = start g w ∧ ∀ k, Moves g w limit (f k) (f (k + 1)) := by
  rintro ⟨f, hstart, hmoves⟩
  have hsound : ∀ k, (f k).Sound g w limit := by
    intro k
    induction k with
    | zero => exact hstart ▸ sound_start g w limit
    | succ k ih => exact ih.moves (hmoves k)
  obtain ⟨k, hk⟩ := WellFounded.not_rel_apply_succ
    (r := Prod.Lex (· < ·) (Prod.Lex (· < ·) (· < ·))) fun k ↦ (f k).ahead g w
  exact hk ((hsound k).ahead_lt hg (hmoves k))

end Moment

/-! ## Room for everything -/

theorem Run.IsWhole.size_le_capacity (hg : g.NonErasing) {whole : Run} (h : IsWhole g w whole)
    (i : Nat) : (whole.set i).size ≤ capacity g w.length := by
  obtain ⟨limit, hrun, -⟩ := h
  have inv := invariant_overInput g w limit
  rw [hrun, outcome_ok] at inv
  exact inv.size_le_capacity_length hg i

/-- A limit that leaves every set the room that it can need is never hit. -/
theorem verdict_ne_tooManyItems (hg : g.NonErasing) {limits : Limits}
    (hroom : capacity g w.length ≤ limits.maxStates) (i limit : Nat) :
    (recognize g w limits).verdict ≠ .exhausted (.tooManyItems i limit) := by
  by_cases hlen : w.length ≤ limits.maxLength
  · obtain ⟨whole, hwhole⟩ := exists_isWhole hg w
    have hrun := hwhole.overInput_eq fun k ↦ Nat.le_trans (hwhole.size_le_capacity hg k) hroom
    rw [recognize_of_ok hlen hrun]
    exact Verdict.ofBool_ne_exhausted _ _
  · rw [recognize_of_lt (Nat.lt_of_not_le hlen)]
    nofun

/-- At every moment of a run, whatever the limit, the sets are well formed and bounded, the walk has
not left its set, and the sets before that are finished.  So there is no run without end: every
moment leads to the last one, where the sets are those of the chart.  And a limit on the items of a
set that is not below the bound is never hit. -/
theorem run_ends_within_bounds (hg : g.WellFormed) (w : List Char) (limit : Nat) :
    (∀ m, Moment.Reachable g w limit m → m.run.sets.size = w.length + 1 ∧
      (∀ i ≤ w.length, (m.run.set i).WellFormed g i) ∧
      ∀ i, m.started = i + 1 → m.place ≤ (m.run.set i).size ∧
        ∀ j < i, ∀ m', Proceeds g w limit m m' → m'.run.set j = m.run.set j) ∧
    (¬∃ f : Nat → Moment, f 0 = .start g w ∧ ∀ k, Moves g w limit (f k) (f (k + 1))) ∧
    (∃ m, Moment.IsLast g w limit m ∧ m.run = outcome (overInput g limit w) ∧
      ∀ m', Moment.Reachable g w limit m' → Proceeds g w limit m' m) ∧
    ∀ limits : Limits, g.productions.length + w.length * g.symbolCount ≤ limits.maxStates →
      ∀ i k, (recognize g w limits).verdict ≠ .exhausted (.tooManyItems i k) := by
  have hne := hg.nonErasing
  refine ⟨fun m hm ↦ ?_, Moment.not_exists_moves hne w limit, ?_, fun limits hroom ↦
    verdict_ne_tooManyItems hne hroom⟩
  · have hsound := hm.sound
    exact ⟨hsound.invariant.size_sets, fun i hi ↦ hsound.invariant.wellFormed_set hne hi,
      fun i hi ↦ ⟨hsound.place_le i hi, fun j hj m' ↦ hsound.set_eq hi hj⟩⟩
  · obtain ⟨m, hm, hlast, hrun, -⟩ := Moment.exists_isLast g w limit
    exact ⟨m, hlast, hrun, fun m' hm' ↦ hm.proceeds hlast hm'⟩

/-- Over `a a` the grammar `S → S S | a` has five items behind the first character at most, and a
run with room for three is stopped there.  With room for eight, none is stopped. -/
theorem run_ends_within_bounds_stopped :
    let g : Grammar := ⟨["S"], [⟨⟨0⟩, [.nonterm ⟨0⟩, .nonterm ⟨0⟩]⟩, ⟨⟨0⟩, [.term 'a']⟩], ⟨0⟩⟩
    g.WellFormed ∧
      (∃ m, Moment.IsLast g ['a', 'a'] 3 m ∧ m.run = outcome (overInput g 3 ['a', 'a']) ∧
        (m.run.set 1).WellFormed g 1 ∧ (m.run.set 1).size = 3) ∧
      (¬∃ f : Nat → Moment, f 0 = .start g ['a', 'a'] ∧
        ∀ k, Moves g ['a', 'a'] 3 (f k) (f (k + 1))) ∧
      ∀ i k, (recognize g ['a', 'a'] ⟨2, 8⟩).verdict ≠ .exhausted (.tooManyItems i k) := by
  intro g
  have hg : g.WellFormed := by decide
  obtain ⟨hreachable, hends, ⟨m, hlast, hrun, hproceeds⟩, hroom⟩ :=
    run_ends_within_bounds hg ['a', 'a'] 3
  obtain ⟨-, hsets, -⟩ := hreachable m (hproceeds _ .refl)
  have hsize : ((outcome (overInput g 3 ['a', 'a'])).set 1).size = 3 := by decide +kernel
  exact ⟨hg, ⟨m, hlast, hrun, hsets 1 (by decide), hrun ▸ hsize⟩, hends, hroom ⟨2, 8⟩ (by decide)⟩

end ContextFree.Earley
