import ContextFree.Proofs.Cyk.Filling

/-!
# The chart of bottom-up recognition is exact

The filled table holds a non-terminal on a span just if the binary part of the grammar derives the
input there.  The proof goes up through the lengths: a table that is exact for the spans up to a
length is exact for the next length once these spans are filled.
-/

namespace ContextFree.Cyk

variable {g : Grammar} {w : List Char}

theorem mem_spansOfLength {n length : Nat} {s : Span} (hpos : 0 < length) :
    s ∈ spansOfLength n length ↔ s.Within n ∧ s.length = length := by
  obtain ⟨first, last⟩ := s
  simp only [spansOfLength, List.mem_map, List.mem_range, Span.mk.injEq, Span.Within, Span.length]
  constructor
  · rintro ⟨i, hi, rfl, rfl⟩
    omega
  · rintro ⟨⟨hle, hlt⟩, hlength⟩
    exact ⟨first, by omega, rfl, by omega⟩

namespace Filling

/-- The table holds exactly what is covered on the spans up to a length, and nothing else. -/
structure ExactUpTo (g : Grammar) (w : List Char) (length : Nat) (f : Filling) : Prop where
  fits : f.Fits w.length g.size
  has_iff : ∀ s a, f.Has s a ↔ s.length ≤ length ∧ s.Within w.length ∧ Covers g w s a

/-- The cells of single positions, filled from an empty table. -/
theorem exactUpTo_one (hg : g.WellFormed) :
    ExactUpTo g w 1 (w.zipIdx.foldl (fillPosition (terminalRules g))
      ⟨.empty w.length g.size, []⟩) := by
  have hfits : Fits w.length g.size ⟨.empty w.length g.size, []⟩ :=
    ⟨Table.sized_empty _ _, rfl, rfl⟩
  have hpos : ∀ x ∈ w.zipIdx, w[x.2]? = some x.1 := fun x hx ↦
    List.mem_zipIdx_iff_getElem?.1 hx
  have hlt : ∀ x ∈ w.zipIdx, x.2 < w.length := fun x hx ↦
    (List.getElem?_eq_some_iff.1 (hpos x hx)).1
  obtain ⟨hfits, hhas⟩ := has_foldl_fillPosition hlt (m := g.size) rfl hfits
  refine ⟨hfits, fun s a ↦ ?_⟩
  have hempty : ¬Has ⟨.empty w.length g.size, []⟩ s a := by
    simp [Has, Table.contains_empty]
  rw [hhas, or_iff_right hempty]
  constructor
  · rintro ⟨x, hx, rfl, hrule⟩
    exact ⟨by simp [Span.length], ⟨Nat.le_refl _, hlt x hx⟩,
      (covers_position_iff hg (hpos x hx)).2 hrule⟩
  · rintro ⟨hlength, ⟨hle, hlast⟩, hcovers⟩
    obtain ⟨first, last⟩ := s
    obtain rfl : first = last := by
      simp only [Span.length] at hlength hle
      omega
    have hc : w[first]? = some w[first] := List.getElem?_eq_getElem hlast
    exact ⟨(w[first], first), List.mem_zipIdx_iff_getElem?.2 hc, rfl,
      (covers_position_iff hg hc).1 hcovers⟩

/-- What a span of the next length splits into is known exactly. -/
theorem ExactUpTo.splitsAt_iff {length : Nat} {f : Filling} (h : f.ExactUpTo g w length) {s : Span}
    {a : NonTerm} {k : Nat} (hs : s.Within w.length) (hlength : s.length = length + 1)
    (hfirst : s.first ≤ k) (hk : k < s.last) :
    SplitsAt g f.Has s a k ↔ SplitsAt g (Covers g w) s a k := by
  have hlast : s.last < w.length := hs.2
  simp only [Span.length] at hlength
  have hleft : (⟨s.first, k⟩ : Span).length ≤ length := by
    simp only [Span.length]
    omega
  have hright : (⟨k + 1, s.last⟩ : Span).length ≤ length := by
    simp only [Span.length]
    omega
  have hinLeft : (⟨s.first, k⟩ : Span).Within w.length := ⟨hfirst, Nat.lt_trans hk hlast⟩
  have hinRight : (⟨k + 1, s.last⟩ : Span).Within w.length := ⟨hk, hlast⟩
  refine exists_congr fun r ↦ and_congr_right fun _ ↦ ?_
  simp only [h.has_iff, hleft, hright, hinLeft, hinRight, true_and]

/-- Filling the spans of the next length. -/
theorem ExactUpTo.succ (hg : g.WellFormed) {length : Nat} (hpos : 0 < length) {f : Filling}
    (h : f.ExactUpTo g w length) :
    ExactUpTo g w (length + 1)
      ((spansOfLength w.length (length + 1)).foldl (fillSpan (binaryRules g)) f) := by
  obtain ⟨hfits, hhas⟩ := has_foldl_fillSpan
    (fun s hs ↦ (mem_spansOfLength (Nat.succ_pos length)).1 hs) rfl h.fits
  refine ⟨hfits, fun s a ↦ ?_⟩
  rw [hhas, h.has_iff, mem_spansOfLength (Nat.succ_pos length)]
  constructor
  · rintro (⟨hlength, hs, hcovers⟩ | ⟨⟨hs, hlength⟩, k, hfirst, hlast, hk⟩)
    · exact ⟨Nat.le_succ_of_le hlength, hs, hcovers⟩
    · refine ⟨Nat.le_of_eq hlength, hs, ?_⟩
      rw [covers_iff_exists_split hg (Nat.lt_of_le_of_lt hfirst hlast) hs.2]
      exact ⟨k, hfirst, hlast, (h.splitsAt_iff hs hlength hfirst hlast).1 hk⟩
  · rintro ⟨hlength, hs, hcovers⟩
    rcases Nat.lt_or_eq_of_le hlength with hlt | heq
    · exact .inl ⟨Nat.le_of_lt_succ hlt, hs, hcovers⟩
    · have hlt : s.first < s.last := by
        simp only [Span.length] at heq
        omega
      obtain ⟨k, hfirst, hlast, hk⟩ := (covers_iff_exists_split hg hlt hs.2).1 hcovers
      exact .inr ⟨⟨hs, heq⟩, k, hfirst, hlast, (h.splitsAt_iff hs heq hfirst hlast).2 hk⟩

/-- Filling the spans of the next `k` lengths, the shorter ones first. -/
theorem ExactUpTo.add (hg : g.WellFormed) {length : Nat} (hpos : 0 < length) {f : Filling}
    (h : f.ExactUpTo g w length) (k : Nat) :
    ExactUpTo g w (length + k) (((List.range' (length + 1) k).flatMap
      (spansOfLength w.length)).foldl (fillSpan (binaryRules g)) f) := by
  induction k generalizing length f with
  | zero => exact h
  | succ k ih =>
    rw [List.range'_succ, List.flatMap_cons, List.foldl_append, ← Nat.add_assoc,
      Nat.add_right_comm]
    exact ih (Nat.succ_pos length) (h.succ hg hpos)

end Filling

/-- The filled table holds exactly what is covered. -/
theorem has_fill_iff (hg : g.WellFormed) {s : Span} {a : NonTerm} :
    (fill g w).Has s a ↔ s.Within w.length ∧ Covers g w s a := by
  have hexact := (Filling.exactUpTo_one (w := w) hg).add hg Nat.one_pos (w.length - 1)
  refine (hexact.has_iff s a).trans ?_
  rw [and_iff_right_iff_imp]
  rintro ⟨⟨hle, hlt⟩, -⟩
  simp only [Span.length]
  omega

/-- The chart accepts what the start symbol derives by the binary part. -/
theorem accepts_iff_member_binaryPart (hg : g.WellFormed) :
    (Chart.mk g w (fill g w).table).accepts = true ↔ w ≠ [] ∧ g.binaryPart.Member w := by
  by_cases hw : w = []
  · simp [Chart.accepts, Chart.rootSpan?, hw]
  · have hpos := List.length_pos_iff.2 hw
    have hlast : w.length - 1 + 1 = w.length := Nat.sub_add_cancel hpos
    simp only [Chart.accepts, Chart.rootSpan?, Chart.length, if_neg hw, Option.any_some]
    refine (has_fill_iff hg).trans ?_
    rw [Covers, hlast, slice_zero_length, Grammar.Member, Grammar.generates_iff_yields,
      and_iff_right ⟨Nat.zero_le _, Nat.sub_lt hpos Nat.one_pos⟩, and_iff_right hw]
    rfl

section Recognition

variable {limits : Limits} {memory : Memory}

/-- An input within the limits is looked at to its end if there is memory for its table. -/
theorem recognize_of_hasRoom (h : w.length ≤ limits.maxLength)
    (hroom : Table.HasRoom memory w.length g.size) :
    recognize g w limits memory = .finish (.ofBool (Chart.mk g w (fill g w).table).accepts)
      (some ⟨g, w, (fill g w).table⟩) (fill g w).events.reverse := by
  rw [recognize, Limits.exceededBy, if_neg (Nat.not_lt.2 h), Table.allocate_eq, if_pos hroom]

theorem verdict_of_hasRoom (h : w.length ≤ limits.maxLength)
    (hroom : Table.HasRoom memory w.length g.size) :
    (recognize g w limits memory).verdict =
      .ofBool (Chart.mk g w (fill g w).table).accepts := by
  rw [recognize_of_hasRoom h hroom]
  rfl

/-- Without memory for its table, an input within the limits is not looked at. -/
theorem recognize_of_not_hasRoom (h : w.length ≤ limits.maxLength)
    (hroom : ¬Table.HasRoom memory w.length g.size) :
    recognize g w limits memory = .finish (.fault (Table.fault w.length g.size)) none [] := by
  rw [recognize, Limits.exceededBy, if_neg (Nat.not_lt.2 h), Table.allocate_eq, if_neg hroom]

/-- A table that cannot be counted is too large for any machine. -/
theorem recognize_of_not_addressable (h : w.length ≤ limits.maxLength)
    (hcount : ¬Table.Addressable w.length g.size) :
    recognize g w limits memory = .finish (.fault (.chartTooLarge w.length)) none [] := by
  rw [recognize_of_not_hasRoom h fun hroom ↦ hcount hroom.toAddressable, Table.fault,
    if_neg hcount]

/-- An input that is too long is not looked at. -/
theorem recognize_of_lt (h : limits.maxLength < w.length) : recognize g w limits memory =
    .finish (.exhausted (.inputTooLong w.length limits.maxLength)) none [] := by
  rw [recognize, Limits.exceededBy, if_pos h]

/-- There is a chart just if the input is not too long and there is memory for its table, and then
it is the filled table. -/
theorem chart_eq_some_iff {c : Chart} : (recognize g w limits memory).chart = some c ↔
    (w.length ≤ limits.maxLength ∧ Table.HasRoom memory w.length g.size) ∧
      c = ⟨g, w, (fill g w).table⟩ := by
  by_cases h : w.length ≤ limits.maxLength
  · by_cases hroom : Table.HasRoom memory w.length g.size
    · rw [recognize_of_hasRoom h hroom, and_iff_right ⟨h, hroom⟩, Recognition.finish,
        Option.some.injEq, eq_comm]
    · rw [recognize_of_not_hasRoom h hroom]
      exact iff_of_false nofun fun hc ↦ hroom hc.1.2
  · rw [recognize_of_lt (Nat.lt_of_not_le h)]
    exact iff_of_false nofun fun hc ↦ h hc.1.1

end Recognition

/-- Bottom-up recognition is exact.  A span of the chart, whether or not it lies in the input, holds
a non-terminal, whether or not it is foreign, just if the productions `A → a` and `A → B C` derive
the input on the span; and the verdict is about the span of the whole input. -/
theorem chart_exact {limits : Limits} {memory : Memory} (hg : g.WellFormed)
    (h : w.length ≤ limits.maxLength) (hroom : Table.HasRoom memory w.length g.size) :
    ∃ c, (recognize g w limits memory).chart = some c ∧
      (∀ s a, c.contains s a = true ↔
        s.Within w.length ∧ g.binaryPart.Generates a (slice w s.first (s.last + 1))) ∧
      ((recognize g w limits memory).verdict = .accepted ↔ w ≠ [] ∧ g.binaryPart.Member w) ∧
      ((recognize g w limits memory).verdict = .rejected ↔ ¬(w ≠ [] ∧ g.binaryPart.Member w)) ∧
      (g.isBinary = true → ((recognize g w limits memory).verdict = .accepted ↔ g.Member w)) := by
  have hverdict := verdict_of_hasRoom h hroom
  have haccepts := accepts_iff_member_binaryPart (w := w) hg
  refine ⟨_, chart_eq_some_iff.2 ⟨⟨h, hroom⟩, rfl⟩, fun s a ↦ ?_, ?_, ?_, fun hbinary ↦ ?_⟩
  · rw [Grammar.generates_iff_yields]
    exact has_fill_iff hg
  · rw [hverdict, Verdict.ofBool_eq_accepted, haccepts]
  · rw [hverdict, Verdict.ofBool_eq_rejected, haccepts]
  · rw [hverdict, Verdict.ofBool_eq_accepted, haccepts, Grammar.binaryPart_eq_self hbinary,
      hg.nonErasing.ne_nil_and_member_iff]

/-- In `S → S T | a`, `T → b | ()` the production `T → ()` takes no part. -/
theorem chart_exact_left_recursive :
    let g : Grammar := ⟨["S", "T"], [⟨⟨0⟩, [.nonterm ⟨0⟩, .nonterm ⟨1⟩]⟩, ⟨⟨0⟩, [.term 'a']⟩,
      ⟨⟨1⟩, [.term 'b']⟩, ⟨⟨1⟩, [.term '(', .term ')']⟩], ⟨0⟩⟩
    (recognize g ['a', 'b', 'b'] {}).verdict = .accepted ∧ g.binaryPart.Member ['a', 'b', 'b'] ∧
      ¬g.binaryPart.Member ['a', '(', ')'] := by
  intro g
  have hg : g.WellFormed := by decide
  have hroom : Table.HasRoom .standard 3 g.size := by decide
  obtain ⟨c, -, -, haccepted, -, -⟩ :=
    @chart_exact g ['a', 'b', 'b'] {} .standard hg (by decide) hroom
  obtain ⟨c', -, -, -, hrejected, -⟩ :=
    @chart_exact g ['a', '(', ')'] {} .standard hg (by decide) hroom
  have hverdict : (recognize g ['a', 'b', 'b'] {}).verdict = .accepted := by decide +kernel
  have hverdict' : (recognize g ['a', '(', ')'] {}).verdict = .rejected := by decide +kernel
  exact ⟨hverdict, (haccepted.1 hverdict).2, fun hmember ↦ hrejected.1 hverdict' ⟨by simp, hmember⟩⟩

end ContextFree.Cyk
