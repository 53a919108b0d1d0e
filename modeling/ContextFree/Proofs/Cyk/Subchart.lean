import ContextFree.Proofs.Cyk.TieBreak
import ContextFree.Proofs.Cyk.Trace

/-!
# The chart of a part of the input

A chart of a word contains the charts of all its parts.  The two tables have different widths, so
nothing lies at the same address in both, and they are filled in different orders.  But what a table
holds on a span is decided by the characters there, and of the reasons for an entry the last one is
kept: both are moved along with the span (`LastReason.shift`), and the last reason is unique.
-/

namespace ContextFree.Cyk

variable {g : Grammar} {w : List Char}

/-- The span that lies `d` positions behind. -/
def Span.shift (d : Nat) (s : Span) : Span := ⟨s.first + d, s.last + d⟩

/-- The reason on the span that lies `d` positions behind. -/
def Backpointer.shift (d : Nat) : Backpointer → Backpointer
  | .terminal p => .terminal p
  | .binary p k => .binary p (k + d)

namespace Backpointer

variable (d : Nat) (s : Span) (b : Backpointer)

@[simp] theorem production_shift : (b.shift d).production = b.production := by
  cases b <;> rfl

@[simp] theorem left?_shift : (b.shift d).left? (s.shift d) = (b.left? s).map (.shift d) := by
  cases b <;> rfl

@[simp] theorem right?_shift : (b.shift d).right? (s.shift d) = (b.right? s).map (.shift d) := by
  cases b with
  | terminal => rfl
  | binary p k => simp [shift, right?, Span.shift, Nat.add_right_comm]

end Backpointer

/-- The first part of a span. -/
theorem Span.Within.left {s : Span} {n k : Nat} (h : s.Within n) (hfirst : s.first ≤ k)
    (hlast : k < s.last) : (⟨s.first, k⟩ : Span).Within n :=
  ⟨hfirst, Nat.lt_trans hlast h.2⟩

/-- The second part of a span. -/
theorem Span.Within.right {s : Span} {n k : Nat} (h : s.Within n) (hlast : k < s.last) :
    (⟨k + 1, s.last⟩ : Span).Within n := ⟨hlast, h.2⟩

/-! ## What does not depend on the place -/

section Slice

variable {d e : Nat} {s : Span} {a : NonTerm}

theorem covers_slice_iff (hs : s.Within (e - d)) :
    Covers g (slice w d e) s a ↔ Covers g w (s.shift d) a := by
  have hle : s.last + 1 + d ≤ e := by
    have := hs.2
    omega
  rw [Covers, Covers, slice_slice w hle]
  simp only [Span.shift, Nat.add_right_comm]

variable (he : e ≤ w.length) (hs : s.Within (e - d))

include he hs

theorem Span.Within.shift : (s.shift d).Within w.length := by
  obtain ⟨hle, hlt⟩ := hs
  refine ⟨Nat.add_le_add_right hle d, ?_⟩
  simp only [Span.shift]
  omega

theorem final_slice_iff :
    Filling.Final g (slice w d e) s a ↔ Filling.Final g w (s.shift d) a := by
  have hwithin : s.Within (slice w d e).length := by rwa [length_slice w d he]
  rw [Filling.Final, Filling.Final, covers_slice_iff hs, and_iff_right hwithin,
    and_iff_right (hs.shift he)]

/-- A production applies to a split of a part just if it applies to that split of the whole. -/
theorem appliesAt_slice_iff {k : Nat} {p : ProdId} (hfirst : s.first ≤ k) (hlast : k < s.last) :
    AppliesAt g (Filling.Final g (slice w d e)) s k p ↔
      AppliesAt g (Filling.Final g w) (s.shift d) (k + d) p := by
  simp only [AppliesAt, final_slice_iff he (hs.left hfirst hlast),
    final_slice_iff he (hs.right hlast), Span.shift, Nat.add_right_comm]

/-- The last reason for an entry of a part is the last reason for that entry of the whole. -/
theorem LastReason.shift {b : Backpointer}
    (h : LastReason g (slice w d e) (Filling.Final g (slice w d e)) s a b) :
    LastReason g w (Filling.Final g w) (s.shift d) a (b.shift d) := by
  cases h with
  | @terminal i _ c p hc hp =>
    have hlt : i + d < e := Nat.add_lt_of_lt_sub hs.2
    rw [getElem?_slice w hlt] at hc
    exact .terminal hc hp
  | @binary _ _ k p hfirst hlast hp hmax =>
    refine .binary (Nat.add_le_add_right hfirst d) (Nat.add_lt_add_right hlast d)
      (hp.congr fun q _ ↦ appliesAt_slice_iff he hs hfirst hlast) fun k' hlt hlast' q hq happlies ↦ ?_
    -- a larger split of the span behind is a larger split of the span
    obtain ⟨k', rfl⟩ : ∃ k'', k' = k'' + d := ⟨k' - d, by omega⟩
    replace hlt : k < k' := Nat.lt_of_add_lt_add_right hlt
    replace hlast' : k' < s.last := Nat.lt_of_add_lt_add_right hlast'
    have hfirst' : s.first ≤ k' := Nat.le_trans hfirst (Nat.le_of_lt hlt)
    exact hmax k' hlt hlast' q hq ((appliesAt_slice_iff he hs hfirst' hlast').2 happlies)

end Slice

/-! ## Charts -/

section Charts

variable {d e : Nat} {s : Span} (hg : g.WellFormed) (he : e ≤ w.length) (hs : s.Within (e - d))

include hg he hs

theorem contains_fill_slice (a : NonTerm) :
    (Chart.mk g (slice w d e) (fill g (slice w d e)).table).contains s a =
      (Chart.mk g w (fill g w).table).contains (s.shift d) a := by
  rw [Bool.eq_iff_iff]
  exact (has_fill_iff hg).trans ((final_slice_iff he hs).trans (has_fill_iff hg).symm)

theorem backpointer?_fill_slice (a : NonTerm) :
    (Chart.mk g w (fill g w).table).backpointer? (s.shift d) a =
      ((Chart.mk g (slice w d e) (fill g (slice w d e)).table).backpointer? s a).map
        (.shift d) := by
  have hcontains := contains_fill_slice hg he hs a
  cases hb : (Chart.mk g (slice w d e) (fill g (slice w d e)).table).backpointer? s a with
  | none =>
    rw [backpointer?_eq_none_iff (justified_fill g _), hcontains] at hb
    rw [Option.map_none, backpointer?_eq_none_iff (justified_fill g w)]
    exact hb
  | some b =>
    have hsome := ((justified_fill g _).isSome_iff s a).1 (Option.isSome_iff_exists.2 ⟨b, hb⟩)
    obtain ⟨b', hb'⟩ := Option.isSome_iff_exists.1
      (((justified_fill g w).isSome_iff (s.shift d) a).2 (hcontains.symm.trans hsome))
    have hlast := (keepsLast_fill hg s a b hb).shift he hs
    rw [Option.map_some, hlast.unique (keepsLast_fill hg (s.shift d) a b' hb')]
    exact hb'

/-- The traces are the same: at each entry both follow the same reason into parts that are moved
along. -/
theorem trace_fill_slice (a : NonTerm) :
    (Chart.mk g w (fill g w).table).trace (s.shift d) a =
      (Chart.mk g (slice w d e) (fill g (slice w d e)).table).trace s a := by
  induction hn : s.length using Nat.strongRecOn generalizing s a with
  | ind n ih =>
    have hshift := backpointer?_fill_slice hg he hs a
    cases hb : (Chart.mk g (slice w d e) (fill g (slice w d e)).table).backpointer? s a with
    | none =>
      rw [hb] at hshift
      rw [trace_of_eq_none hb, trace_of_eq_none hshift]
    | some b =>
      rw [hb] at hshift
      have hsupports := (justified_fill g (slice w d e)).supports s a b hb
      cases hsupports with
      | terminal => rw [trace_of_terminal hb, trace_of_terminal hshift]
      | @binary _ k r hr hfirst hlast =>
        have hrhs := (mem_binaryRules.1 hr).2.2
        simp only [Span.length] at hn
        have hleft := ih _ (by simp only [Span.length]; omega) (hs.left hfirst hlast) r.left rfl
        have hright := ih _ (by simp only [Span.length]; omega) (hs.right hlast) r.right rfl
        simp only [Span.shift, Nat.add_right_comm k 1 d] at hleft hright
        rw [trace_of_binary hb hrhs hfirst hlast, trace_of_binary hshift hrhs
          (Nat.add_le_add_right hfirst d) (Nat.add_lt_add_right hlast d), ← hleft, ← hright]
        rfl

end Charts

/-- The chart of a part of the input is a part of the chart.  On every span of the part, both hold
the same non-terminals, for the same production and with the same parts, moved along with the span,
and trace them by the same steps.  So the derivation of the part is a trace in the chart of the
whole. -/
theorem subchart {limits : Limits} {memory memory' : Memory} (hg : g.WellFormed)
    (hw : w.length ≤ limits.maxLength) (hroom : Table.HasRoom memory w.length g.size) {s e : Nat}
    (hse : s ≤ e) (he : e < w.length) (hroom' : Table.HasRoom memory' (e + 1 - s) g.size) :
    ∃ c c', (recognize g w limits memory).chart = some c ∧
      (recognize g (slice w s (e + 1)) limits memory').chart = some c' ∧
      (∀ i j a, s ≤ i → i ≤ j → j ≤ e →
        c.contains ⟨i, j⟩ a = c'.contains ⟨i - s, j - s⟩ a ∧
        (c.backpointer? ⟨i, j⟩ a).map
            (fun b ↦ (b.production, b.left? ⟨i, j⟩, b.right? ⟨i, j⟩)) =
          (c'.backpointer? ⟨i - s, j - s⟩ a).map
            (fun b ↦ (b.production, (b.left? ⟨i - s, j - s⟩).map (.shift s),
              (b.right? ⟨i - s, j - s⟩).map (.shift s))) ∧
        c.trace ⟨i, j⟩ a = c'.trace ⟨i - s, j - s⟩ a) ∧
      c.trace ⟨s, e⟩ g.start = c'.derivation := by
  have hend : e + 1 ≤ w.length := he
  have hlength := length_slice w s hend
  have hw' : (slice w s (e + 1)).length ≤ limits.maxLength := by
    rw [hlength]
    omega
  have hback : ∀ {i j : Nat}, s ≤ i → i ≤ j → (⟨i, j⟩ : Span) = .shift s ⟨i - s, j - s⟩ := by
    intro i j hi hij
    rw [Span.shift, Nat.sub_add_cancel hi, Nat.sub_add_cancel (Nat.le_trans hi hij)]
  have hwithin : ∀ {i j : Nat}, i ≤ j → j ≤ e → (⟨i - s, j - s⟩ : Span).Within (e + 1 - s) := by
    intro i j hij hj
    exact ⟨Nat.sub_le_sub_right hij s, by simp only; omega⟩
  refine ⟨_, _, chart_eq_some_iff.2 ⟨⟨hw, hroom⟩, rfl⟩,
    chart_eq_some_iff.2 ⟨⟨hw', hlength ▸ hroom'⟩, rfl⟩, fun i j a hi hij hj ↦ ?_, ?_⟩
  · have hspan := hwithin hij hj
    rw [hback hi hij]
    refine ⟨(contains_fill_slice hg hend hspan a).symm, ?_, trace_fill_slice hg hend hspan a⟩
    simp only [backpointer?_fill_slice hg hend hspan, Option.map_map, Function.comp_def,
      Backpointer.production_shift, Backpointer.left?_shift, Backpointer.right?_shift]
  · have hne : slice w s (e + 1) ≠ [] := List.ne_nil_of_length_pos (by omega)
    have hlast : (slice w s (e + 1)).length - 1 = e - s := by omega
    have hroot := trace_fill_slice hg hend (hwithin hse (Nat.le_refl e)) g.start
    rw [← hback (Nat.le_refl s) hse, Nat.sub_self] at hroot
    simp only [Chart.derivation, Chart.rootSpan?, Chart.length, if_neg hne, hlast, hroot]

/-- In `S → S S | T T | a`, `T → a` the part `a a a` of `b a a a` can be split in two ways. -/
theorem subchart_ambiguous :
    let g : Grammar := ⟨["S", "T"], [⟨⟨0⟩, [.nonterm ⟨0⟩, .nonterm ⟨0⟩]⟩,
      ⟨⟨0⟩, [.nonterm ⟨1⟩, .nonterm ⟨1⟩]⟩, ⟨⟨0⟩, [.term 'a']⟩, ⟨⟨1⟩, [.term 'a']⟩], ⟨0⟩⟩
    ∃ c c', (recognize g ['b', 'a', 'a', 'a'] {}).chart = some c ∧
      (recognize g ['a', 'a', 'a'] {}).chart = some c' ∧ c'.contains ⟨0, 2⟩ ⟨0⟩ = true ∧
      c.contains ⟨1, 3⟩ ⟨0⟩ = c'.contains ⟨0, 2⟩ ⟨0⟩ ∧ c.trace ⟨1, 3⟩ ⟨0⟩ = c'.derivation := by
  intro g
  obtain ⟨c, c', hc, hc', hparts, hderivation⟩ :=
    @subchart g ['b', 'a', 'a', 'a'] {} .standard .standard (by decide) (by decide) (by decide) 1 3
      (by decide) (by decide) (by decide)
  have hcontains : (recognize g ['a', 'a', 'a'] {}).chart.map (·.contains ⟨0, 2⟩ ⟨0⟩) =
      some true := by decide +kernel
  have hpart : slice ['b', 'a', 'a', 'a'] 1 (3 + 1) = ['a', 'a', 'a'] := by decide
  rw [hpart] at hc'
  rw [hc', Option.map_some, Option.some.injEq] at hcontains
  exact ⟨c, c', hc, hc', hcontains,
    (hparts 1 3 ⟨0⟩ (by decide) (by decide) (by decide)).1, hderivation⟩

end ContextFree.Cyk
