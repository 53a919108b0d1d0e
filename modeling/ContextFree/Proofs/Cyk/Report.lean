import ContextFree.Proofs.Cyk.TieBreak
import Mathlib.Data.List.Induction

/-!
# What is reported, and in which order

An entry is reported when it is recorded for the first time.  So every entry is reported once, and
the order of the reports is the order in which entries are first found: cell by cell, and within a
cell by the smallest split at which a production applies, and there by the left-hand sides.

The reason that an entry keeps is the last one that is found, its report belongs to the first one.
What both need is that the attempts on a cell do not depend on the cell.
-/

namespace ContextFree.Cyk

/-- A span and a non-terminal in its cell. -/
abbrev Entry := Span × NonTerm

variable {g : Grammar} {w : List Char} {In : Span → NonTerm → Prop}

/-! ## The order of entries -/

/-- The smallest split of a span at which a production of the non-terminal applies. -/
structure FirstSplit (g : Grammar) (In : Span → NonTerm → Prop) (s : Span) (a : NonTerm) (k : Nat) :
    Prop where
  first_le : s.first ≤ k
  lt_last : k < s.last
  splitsAt : SplitsAt g In s a k
  not_splitsAt : ∀ k', s.first ≤ k' → k' < k → ¬SplitsAt g In s a k'

/-- The order in which entries are found. -/
inductive FoundBefore (g : Grammar) (In : Span → NonTerm → Prop) : Entry → Entry → Prop where
  /-- Shorter spans come first. -/
  | length {s s' : Span} {a a' : NonTerm} (h : s.length < s'.length) :
      FoundBefore g In (s, a) (s', a')
  /-- Spans of one length come from left to right. -/
  | first {s s' : Span} {a a' : NonTerm} (hlength : s.length = s'.length)
      (h : s.first < s'.first) : FoundBefore g In (s, a) (s', a')
  /-- In a cell, smaller splits come first. -/
  | split {s : Span} {a a' : NonTerm} {k k' : Nat} (ha : FirstSplit g In s a k)
      (ha' : FirstSplit g In s a' k') (h : k < k') : FoundBefore g In (s, a) (s, a')
  /-- What is found at the same split, or without one, comes in the order of the non-terminals. -/
  | index {s : Span} {a a' : NonTerm} (hsplit : ∀ k, FirstSplit g In s a k ↔ FirstSplit g In s a' k)
      (h : a.index < a'.index) : FoundBefore g In (s, a) (s, a')

theorem FirstSplit.unique {s : Span} {a : NonTerm} {k k' : Nat} (h : FirstSplit g In s a k)
    (h' : FirstSplit g In s a k') : k = k' := by
  rcases Nat.lt_trichotomy k k' with hlt | heq | hlt
  · exact absurd h.splitsAt (h'.not_splitsAt k h.first_le hlt)
  · exact heq
  · exact absurd h'.splitsAt (h.not_splitsAt k' h'.first_le hlt)

/-- If a span splits at all, there is a first split. -/
theorem exists_firstSplit {s : Span} {a : NonTerm} {k : Nat} (hfirst : s.first ≤ k)
    (hlast : k < s.last) (h : SplitsAt g In s a k) : ∃ k' ≤ k, FirstSplit g In s a k' := by
  induction k using Nat.strongRecOn with
  | ind k ih =>
    by_cases hmin : ∃ k', s.first ≤ k' ∧ k' < k ∧ SplitsAt g In s a k'
    · obtain ⟨k', hfirst', hlt, h'⟩ := hmin
      obtain ⟨k₀, hle, hk₀⟩ := ih k' hlt hfirst' (Nat.lt_trans hlt hlast) h'
      exact ⟨k₀, Nat.le_trans hle (Nat.le_of_lt hlt), hk₀⟩
    · exact ⟨k, Nat.le_refl k, hfirst, hlast, h, fun k' hfirst' hlt h' ↦
        hmin ⟨k', hfirst', hlt, h'⟩⟩

theorem FoundBefore.length_le {e e' : Entry} (h : FoundBefore g In e e') :
    e.1.length ≤ e'.1.length := by
  cases h with
  | length h => exact Nat.le_of_lt h
  | first hlength => exact Nat.le_of_eq hlength
  | split | index => exact Nat.le_refl _

/-- The order is strict, so it leaves one sequence of the entries of a chart. -/
theorem FoundBefore.asymm {e e' : Entry} (h : FoundBefore g In e e') :
    ¬FoundBefore g In e' e := by
  intro h'
  cases h with
  | length h => exact Nat.not_lt.2 h'.length_le h
  | first hlength h =>
    cases h' with
    | length h' => exact Nat.ne_of_gt h' hlength
    | first _ h' => exact Nat.lt_asymm h h'
    | split | index => exact Nat.lt_irrefl _ h
  | split ha ha' h =>
    cases h' with
    | length h' | first _ h' => exact Nat.lt_irrefl _ h'
    | split hb hb' h' =>
      rw [ha'.unique hb, ha.unique hb'] at h
      exact Nat.lt_asymm h h'
    | index hsplit => exact Nat.ne_of_lt h (ha.unique ((hsplit _).1 ha'))
  | index hsplit h =>
    cases h' with
    | length h' | first _ h' => exact Nat.lt_irrefl _ h'
    | split hb hb' h' => exact Nat.ne_of_lt h' (hb.unique ((hsplit _).1 hb'))
    | index _ h' => exact Nat.lt_asymm h h'

/-- An entry of a shorter span can neither be a given entry nor come after it. -/
theorem mem_of_length_lt {before after : List Entry} {e e' : Entry}
    (h : (before ++ e :: after).Pairwise (FoundBefore g In)) (hmem : e' ∈ before ++ e :: after)
    (hlt : e'.1.length < e.1.length) : e' ∈ before := by
  rcases List.mem_append.1 hmem with hbefore | hrest
  · exact hbefore
  · rcases List.mem_cons.1 hrest with rfl | hafter
    · exact absurd hlt (Nat.lt_irrefl _)
    · have hle := (List.pairwise_cons.1 (List.pairwise_append.1 h).2.1).1 e' hafter
      exact absurd hlt (Nat.not_lt.2 hle.length_le)

/-! ## The order of attempts -/

/-- Rules come by their left-hand sides. -/
theorem pairwise_lhs_of_rules {β : Type} {rule : NonTerm → ProdId → Option β} (lhs : β → NonTerm)
    (hlhs : ∀ a p r, rule a p = some r → lhs r = a) :
    (g.nonterms.flatMap fun a ↦ (g.alternatives a).filterMap (rule a)).Pairwise
      fun r r' ↦ (lhs r).index ≤ (lhs r').index := by
  have hmem : ∀ {a r}, r ∈ (g.alternatives a).filterMap (rule a) → lhs r = a := by
    intro a r hr
    obtain ⟨p, -, heq⟩ := List.mem_filterMap.1 hr
    exact hlhs a p r heq
  rw [List.pairwise_flatMap]
  constructor
  · intro a _
    refine List.pairwise_of_forall_mem_list fun r hr r' hr' ↦ Nat.le_of_eq ?_
    rw [hmem hr, hmem hr']
  · rw [Grammar.nonterms, List.pairwise_map]
    refine List.pairwise_lt_range.imp fun hlt r hr r' hr' ↦ ?_
    rw [hmem hr, hmem hr']
    exact Nat.le_of_lt hlt

theorem pairwise_terminalRules (g : Grammar) :
    (terminalRules g).Pairwise fun r r' ↦ r.lhs.index ≤ r'.lhs.index := by
  rw [terminalRules_eq]
  exact pairwise_lhs_of_rules _ fun a p r hr ↦ (TerminalRule.of?_eq_some.1 hr).1

theorem pairwise_binaryRules (g : Grammar) :
    (binaryRules g).Pairwise fun r r' ↦ r.lhs.index ≤ r'.lhs.index := by
  rw [binaryRules_eq]
  exact pairwise_lhs_of_rules _ fun a p r hr ↦ (BinaryRule.of?_eq_some.1 hr).1

namespace Filling

/-- Smaller splits are tried first, and at each split the rules in the order of their left-hand
sides. -/
theorem pairwise_attempts (g : Grammar) (s : Span) :
    (attempts (binaryRules g) s).Pairwise fun x y ↦
      x.1 < y.1 ∨ x.1 = y.1 ∧ x.2.lhs.index ≤ y.2.lhs.index := by
  rw [attempts, List.pairwise_flatMap]
  constructor
  · intro k _
    rw [List.pairwise_map]
    exact (pairwise_binaryRules g).imp fun h ↦ .inr ⟨rfl, h⟩
  · refine (List.pairwise_lt_range' 1).imp fun hlt x hx y hy ↦ ?_
    obtain ⟨r, -, rfl⟩ := List.mem_map.1 hx
    obtain ⟨r', -, rfl⟩ := List.mem_map.1 hy
    exact .inl hlt

/-! ## Reports -/

variable {n m : Nat} {f : Filling} {s : Span} {R : Entry → Entry → Prop} {es : List Entry}

/-- The events report the given entries, the latest first: each entry of the table once, in the
order of `R`. -/
structure Reports (R : Entry → Entry → Prop) (f : Filling) (es : List Entry) : Prop where
  events_eq : f.events = es.map fun e ↦ .cellFilled e.1 e.2
  nodup : es.Nodup
  mem_iff : ∀ s a, (s, a) ∈ es ↔ f.Has s a
  pairwise : es.Pairwise fun e e' ↦ R e' e

theorem events_record (f : Filling) (s : Span) (a : NonTerm) (b : Backpointer) :
    (f.record s a b).events =
      if f.table.contains s a then f.events else .cellFilled s a :: f.events := by
  rw [record]
  split <;> rfl

/-- An entry is reported just if it is new. -/
theorem Reports.record (h : f.Reports R es) (hfits : f.Fits n m) (hs : s.Within n) {a : NonTerm}
    (ha : a.index < m) (b : Backpointer) (hR : ¬f.Has s a → ∀ e ∈ es, R e (s, a)) :
    ∃ es', (f.record s a b).Reports R es' := by
  have hhas := has_record hfits hs ha b
  by_cases hold : f.table.contains s a = true
  · refine ⟨es, ?_, h.nodup, fun s' a' ↦ ?_, h.pairwise⟩
    · rw [events_record, if_pos hold, h.events_eq]
    · rw [h.mem_iff, hhas]
      refine (or_iff_left_of_imp ?_).symm
      rintro ⟨rfl, rfl⟩
      exact hold
  · refine ⟨(s, a) :: es, ?_, ?_, fun s' a' ↦ ?_, ?_⟩
    · rw [events_record, if_neg hold, h.events_eq, List.map_cons]
    · exact List.nodup_cons.2 ⟨fun hmem ↦ hold ((h.mem_iff s a).1 hmem), h.nodup⟩
    · rw [List.mem_cons, h.mem_iff, hhas, or_comm, Prod.mk.injEq, @eq_comm _ a' a]
    · exact List.pairwise_cons.2 ⟨hR hold, h.pairwise⟩

/-- After a sequence of attempts on one cell, whose conditions do not depend on that cell, the
entries of the cell are reported behind all others, in the order of the first attempts that
succeeded. -/
theorem Reports.foldl_recordIf {α : Type} {holds : Filling → α → Bool} {lhs : α → NonTerm}
    {reason : α → Backpointer} (hs : s.Within n) {l : List α}
    (hholds : ∀ x ∈ l, ∀ f f' : Filling, (∀ s' a, s' ≠ s → (f'.Has s' a ↔ f.Has s' a)) →
      holds f' x = holds f x)
    (hl : ∀ x ∈ l, (lhs x).index < m) (hfits : f.Fits n m) (h : f.Reports R es)
    (hold : ∀ s' a', f.Has s' a' → ∀ a, R (s', a') (s, a))
    (hnew : ∀ front x back, l = front ++ x :: back → holds f x = true →
      (∀ y ∈ front, holds f y = true → lhs y ≠ lhs x) →
        ∀ y ∈ front, holds f y = true → R (s, lhs y) (s, lhs x)) :
    ∃ es', (l.foldl (recordIf s holds lhs reason) f).Reports R es' := by
  induction l using List.reverseRecOn with
  | nil => exact ⟨es, h⟩
  | append_singleton front x ih =>
    obtain ⟨hholds', hholdsx⟩ := List.forall_mem_append.1 hholds
    obtain ⟨hl', hlx⟩ := List.forall_mem_append.1 hl
    obtain ⟨es', h'⟩ := ih hholds' hl' fun front' y back heq ↦
      hnew front' y (back ++ [x]) (by rw [heq, List.append_assoc, List.cons_append])
    obtain ⟨hfits', hhas⟩ : (front.foldl (recordIf s holds lhs reason) f).Fits n m ∧ _ :=
      has_foldl_recordIf hs hholds' hl' hfits
    have hsame : holds (front.foldl (recordIf s holds lhs reason) f) x = holds f x := by
      refine hholdsx x (.head _) _ _ fun s' a hne ↦ ?_
      rw [hhas, or_iff_left fun ⟨heq, _⟩ ↦ hne heq]
    rw [List.foldl_append, List.foldl_cons, List.foldl_nil, recordIf, hsame]
    split
    case isTrue hcond =>
      refine h'.record hfits' hs (hlx x (.head _)) _ fun hfirst e he ↦ ?_
      have hfirst' : ∀ y ∈ front, holds f y = true → lhs y ≠ lhs x := fun y hy hcondy heq ↦
        hfirst ((hhas s (lhs x)).2 (.inr ⟨rfl, y, hy, hcondy, heq⟩))
      obtain ⟨s', a'⟩ := e
      rcases (hhas s' a').1 ((h'.mem_iff s' a').1 he) with hbefore | ⟨rfl, y, hy, hcondy, rfl⟩
      · exact hold s' a' hbefore _
      · exact hnew front x [] rfl hcond hfirst' y hy hcondy
    case isFalse => exact ⟨es', h'⟩

/-! ## Spans of one position -/

/-- A span of one position is not split. -/
theorem not_firstSplit_position {i k : Nat} {a : NonTerm} : ¬FirstSplit g In ⟨i, i⟩ a k := fun h ↦
  Nat.not_lt.2 h.first_le h.lt_last

theorem reports_foldl_fillPosition {l : List (Char × Nat)} (hl : ∀ x ∈ l, x.2 < n)
    (hpairwise : l.Pairwise fun x y ↦ x.2 < y.2) (hm : g.size = m) (hfits : f.Fits n m)
    (hempty : ∀ s a, ¬f.Has s a) (h : f.Reports (FoundBefore g In) es) :
    ∃ es', (l.foldl (fillPosition (terminalRules g)) f).Reports (FoundBefore g In) es' := by
  induction l using List.reverseRecOn with
  | nil => exact ⟨es, h⟩
  | append_singleton front x ih =>
    obtain ⟨hfront, hx⟩ := List.forall_mem_append.1 hl
    obtain ⟨hpairwise', -, hlt⟩ := List.pairwise_append.1 hpairwise
    obtain ⟨es', h'⟩ := ih hfront hpairwise'
    obtain ⟨hfits', hhas⟩ := has_foldl_fillPosition hfront hm hfits
    rw [List.foldl_append, List.foldl_cons, List.foldl_nil, fillPosition_eq]
    refine h'.foldl_recordIf ⟨Nat.le_refl x.2, hx x (.head _)⟩ (fun _ _ _ _ _ ↦ rfl)
      (fun r hr ↦ hm ▸ (mem_terminalRules.1 hr).1) hfits' ?_ ?_
    · intro s' a' hmem a
      obtain ⟨y, hy, rfl, -⟩ := ((hhas s' a').1 hmem).resolve_left (hempty s' a')
      exact .first (by simp only [Span.length]; omega) (hlt y hy x (.head _))
    · intro front' r back heq _ hne r' hr' hholds
      have hle := (List.pairwise_append.1 (heq ▸ pairwise_terminalRules g)).2.2 r' hr' r (.head _)
      refine .index (fun k ↦ iff_of_false not_firstSplit_position not_firstSplit_position) ?_
      exact Nat.lt_of_le_of_ne hle fun hindex ↦ hne r' hr' hholds (NonTerm.ext hindex)

/-! ## Longer spans -/

/-- An attempt that succeeds splits the span for good. -/
theorem FinalUpTo.splitsAt {length : Nat} (h : f.FinalUpTo g w length)
    (hlength : s.length = length + 1) {x : Nat × BinaryRule} (hx : x ∈ attempts (binaryRules g) s)
    (hholds : appliesAt s f x = true) : SplitsAt g (Final g w) s x.2.lhs x.1 := by
  obtain ⟨hfirst, hlast, hr⟩ := mem_attempts.1 hx
  obtain ⟨hleft, hright⟩ := (h.appliesAt_iff hlength hfirst hlast).1 hholds
  exact ⟨x.2, hr, hleft, hright, rfl⟩

/-- The first attempt that succeeds for a left-hand side is made at its first split: a smaller one
would have been tried in front. -/
theorem FinalUpTo.firstSplit {length : Nat} (h : f.FinalUpTo g w length)
    (hlength : s.length = length + 1) {front back : List (Nat × BinaryRule)} {x : Nat × BinaryRule}
    (heq : attempts (binaryRules g) s = front ++ x :: back) (hx : appliesAt s f x = true)
    (hne : ∀ y ∈ front, appliesAt s f y = true → y.2.lhs ≠ x.2.lhs) :
    FirstSplit g (Final g w) s x.2.lhs x.1 := by
  obtain ⟨-, hback, -⟩ := List.pairwise_append.1 (heq ▸ pairwise_attempts g s)
  have hmem : x ∈ attempts (binaryRules g) s := heq ▸ List.mem_append_right _ (.head _)
  obtain ⟨hfirst, hlast, -⟩ := mem_attempts.1 hmem
  refine ⟨hfirst, hlast, h.splitsAt hlength hmem hx, ?_⟩
  rintro k hfirst' hlt ⟨r, hr, hleft, hright, hlhs⟩
  have hlast' := Nat.lt_trans hlt hlast
  have hz : appliesAt s f (k, r) = true :=
    (h.appliesAt_iff hlength hfirst' hlast').2 ⟨hleft, hright⟩
  have hmem' : (k, r) ∈ front ++ x :: back := heq ▸ mem_attempts.2 ⟨hfirst', hlast', hr⟩
  rcases List.mem_append.1 hmem' with hfront | hrest
  · exact hne _ hfront hz hlhs
  · rcases List.mem_cons.1 hrest with rfl | hbehind
    · exact Nat.lt_irrefl k hlt
    · rcases (List.pairwise_cons.1 hback).1 _ hbehind with hgt | ⟨hsplit, -⟩
      · exact Nat.lt_asymm hlt hgt
      · exact Nat.ne_of_gt hlt hsplit

/-- The new entries of a longer span are reported in the order of their first splits. -/
theorem FinalUpTo.foundBefore_of_attempts {length : Nat} (h : f.FinalUpTo g w length)
    (hlength : s.length = length + 1) {front back : List (Nat × BinaryRule)}
    {x y : Nat × BinaryRule} (heq : attempts (binaryRules g) s = front ++ x :: back)
    (hx : appliesAt s f x = true)
    (hne : ∀ y ∈ front, appliesAt s f y = true → y.2.lhs ≠ x.2.lhs) (hy : y ∈ front)
    (hholds : appliesAt s f y = true) :
    FoundBefore g (Final g w) (s, y.2.lhs) (s, x.2.lhs) := by
  have hmem : y ∈ attempts (binaryRules g) s := heq ▸ List.mem_append_left _ hy
  obtain ⟨hfirst, hlast, -⟩ := mem_attempts.1 hmem
  have hxsplit := h.firstSplit hlength heq hx hne
  obtain ⟨k, hk, hysplit⟩ := exists_firstSplit hfirst hlast (h.splitsAt hlength hmem hholds)
  have hxy := (List.pairwise_append.1 (heq ▸ pairwise_attempts g s)).2.2 y hy x (.head _)
  by_cases hlt : k < x.1
  · exact .split hysplit hxsplit hlt
  · -- both are found at one split, where the rules come by their left-hand sides
    obtain rfl : k = x.1 := by omega
    have hle : y.2.lhs.index ≤ x.2.lhs.index := by omega
    refine .index (fun k' ↦ ⟨fun hk' ↦ ?_, fun hk' ↦ ?_⟩) (Nat.lt_of_le_of_ne hle fun hindex ↦
      hne y hy hholds (NonTerm.ext hindex))
    · rwa [hk'.unique hysplit]
    · rwa [hk'.unique hxsplit]

theorem FinalUpTo.reports_fillSpan {length : Nat} (h : f.FinalUpTo g w length)
    (hreports : f.Reports (FoundBefore g (Final g w)) es) (hs : s.Within w.length)
    (hlength : s.length = length + 1)
    (hold : ∀ s' a', f.Has s' a' → ∀ a, FoundBefore g (Final g w) (s', a') (s, a)) :
    ∃ es', (f.fillSpan (binaryRules g) s).Reports (FoundBefore g (Final g w)) es' := by
  rw [fillSpan_eq]
  exact hreports.foldl_recordIf hs (fun x hx ↦ appliesAt_congr hx)
    (fun x hx ↦ (mem_binaryRules.1 (mem_attempts.1 hx).2.2).1) h.fits hold
    fun front x back heq hx hne y hy hholds ↦
      h.foundBefore_of_attempts hlength heq hx hne hy hholds

theorem FinalUpTo.foldl_fillSpan {length : Nat} (h : f.FinalUpTo g w length) {l : List Span}
    (hl : ∀ s ∈ l, s.Within w.length ∧ length < s.length) :
    (l.foldl (Filling.fillSpan (binaryRules g)) f).FinalUpTo g w length :=
  List.foldlRecOn _ _ h fun _ h s hs ↦ h.fillSpan (hl s hs).1 (hl s hs).2

/-- The spans of one length come from left to right. -/
theorem pairwise_spansOfLength (n length : Nat) :
    (spansOfLength n length).Pairwise fun s s' ↦ s.first < s'.first := by
  rw [spansOfLength, List.pairwise_map]
  exact List.pairwise_lt_range

theorem ExactUpTo.reports_foldl_fillSpan {length : Nat} (h : f.ExactUpTo g w length)
    (hreports : f.Reports (FoundBefore g (Final g w)) es) {l : List Span}
    (hl : ∀ s ∈ l, s.Within w.length ∧ s.length = length + 1)
    (hpairwise : l.Pairwise fun s s' ↦ s.first < s'.first) :
    ∃ es', (l.foldl (fillSpan (binaryRules g)) f).Reports (FoundBefore g (Final g w)) es' := by
  induction l using List.reverseRecOn with
  | nil => exact ⟨es, hreports⟩
  | append_singleton front s ih =>
    obtain ⟨hfront, hs⟩ := List.forall_mem_append.1 hl
    obtain ⟨hwithin, hlength⟩ := hs s (.head _)
    obtain ⟨hpairwise', -, hlt⟩ := List.pairwise_append.1 hpairwise
    obtain ⟨es', hreports'⟩ := ih hfront hpairwise'
    obtain ⟨-, hhas⟩ := has_foldl_fillSpan hfront rfl h.fits
    rw [List.foldl_append, List.foldl_cons, List.foldl_nil]
    have hfinal := h.finalUpTo.foldl_fillSpan fun s' hs' ↦
      ⟨(hfront s' hs').1, Nat.lt_of_lt_of_eq (Nat.lt_succ_self _) (hfront s' hs').2.symm⟩
    refine hfinal.reports_fillSpan hreports' hwithin hlength ?_
    intro s' a' hmem a
    rcases (hhas s' a').1 hmem with hbefore | ⟨hs', -⟩
    · refine .length (Nat.lt_of_le_of_lt ((h.has_iff s' a').1 hbefore).1 ?_)
      exact Nat.lt_of_lt_of_eq (Nat.lt_succ_self length) hlength.symm
    · exact .first ((hfront s' hs').2.trans hlength.symm) (hlt s' hs' s (.head _))

/-- Filling the spans of the next `k` lengths, the shorter ones first. -/
theorem ExactUpTo.reports_add (hg : g.WellFormed) {length : Nat} (hpos : 0 < length)
    (h : f.ExactUpTo g w length) (hreports : f.Reports (FoundBefore g (Final g w)) es) (k : Nat) :
    ∃ es', (((List.range' (length + 1) k).flatMap (spansOfLength w.length)).foldl
      (fillSpan (binaryRules g)) f).Reports (FoundBefore g (Final g w)) es' := by
  induction k generalizing length f es with
  | zero => exact ⟨es, hreports⟩
  | succ k ih =>
    obtain ⟨es', hreports'⟩ := h.reports_foldl_fillSpan hreports
      (fun s hs ↦ (mem_spansOfLength (Nat.succ_pos length)).1 hs) (pairwise_spansOfLength _ _)
    rw [List.range'_succ, List.flatMap_cons, List.foldl_append]
    exact ih (Nat.succ_pos length) (h.succ hg hpos) hreports'

end Filling

/-- In a filled table, every entry was reported once, and in the order of finding. -/
theorem reports_fill (hg : g.WellFormed) :
    ∃ es, (fill g w).Reports (FoundBefore g (Filling.Final g w)) es := by
  have hfits : Filling.Fits w.length g.size ⟨.empty w.length g.size, []⟩ :=
    ⟨Table.sized_empty _ _, rfl, rfl⟩
  have hempty : ∀ s a, ¬Filling.Has ⟨.empty w.length g.size, []⟩ s a := by
    simp [Filling.Has, Table.contains_empty]
  have hpairwise : w.zipIdx.Pairwise fun x y ↦ x.2 < y.2 := by
    rw [← List.pairwise_map (f := Prod.snd), List.zipIdx_map_snd]
    exact List.pairwise_lt_range' 1
  have hlt : ∀ x ∈ w.zipIdx, x.2 < w.length := fun x hx ↦
    (List.getElem?_eq_some_iff.1 (List.mem_zipIdx_iff_getElem?.1 hx)).1
  have hstart : Filling.Reports (FoundBefore g (Filling.Final g w))
      ⟨.empty w.length g.size, []⟩ [] := ⟨rfl, .nil, by simp [hempty], .nil⟩
  obtain ⟨es, hreports⟩ :=
    Filling.reports_foldl_fillPosition hlt hpairwise rfl hfits hempty hstart
  exact (Filling.exactUpTo_one hg).reports_add hg Nat.one_pos hreports _

/-- In a sequence of all entries in the order in which they are found, the two entries that an entry
is made of come before it. -/
theorem parts_before {entries : List Entry}
    (hmem : ∀ s a, (s, a) ∈ entries ↔ (fill g w).table.contains s a = true)
    (hpairwise : entries.Pairwise (FoundBefore g (Filling.Final g w))) {s : Span} {a : NonTerm}
    {p : ProdId} {k : Nat} (hb : (fill g w).table.backpointer? s a = some (.binary p k)) :
    ∃ b b' before after, (g.production p).rhs = [.nonterm b, .nonterm b'] ∧
      entries = before ++ (s, a) :: after ∧ (⟨s.first, k⟩, b) ∈ before ∧
        (⟨k + 1, s.last⟩, b') ∈ before := by
  have hjustified := justified_fill g w
  have ha := (hjustified.isSome_iff s a).1 (Option.isSome_iff_exists.2 ⟨_, hb⟩)
  obtain ⟨before, after, heq⟩ := List.append_of_mem ((hmem s a).2 ha)
  have hbefore : ∀ s' b, s'.length < s.length → (fill g w).table.contains s' b = true →
      (s', b) ∈ before := fun s' b hlt hb' ↦
    mem_of_length_lt (heq ▸ hpairwise) (heq ▸ (hmem s' b).2 hb') hlt
  cases hjustified.supports s a _ hb with
  | @binary _ _ r hr hfirst hlast hleft hright =>
    refine ⟨r.left, r.right, before, after, (mem_binaryRules.1 hr).2.2, heq,
      hbefore _ _ ?_ hleft, hbefore _ _ ?_ hright⟩
    · simp only [Span.length]
      omega
    · simp only [Span.length]
      omega

/-- The reports give an account of the chart.  They are one report of each entry, and at the very
end the verdict; an entry comes before another if it is found before it by the contents of the
chart.  So the two entries that an entry is made of are reported before it.  Without memory for a
table there is no chart, and nothing is reported but the verdict. -/
theorem events_account {limits : Limits} {memory : Memory} (hg : g.WellFormed)
    (h : w.length ≤ limits.maxLength) :
    (Table.HasRoom memory w.length g.size →
      ∃ c entries, (recognize g w limits memory).chart = some c ∧
        (recognize g w limits memory).events = entries.map (fun e ↦ .cellFilled e.1 e.2) ++
          [.finished (recognize g w limits memory).verdict] ∧
        entries.Nodup ∧ (∀ s a, (s, a) ∈ entries ↔ c.contains s a = true) ∧
        entries.Pairwise (FoundBefore g (c.contains · · = true)) ∧
        ∀ s a p k, c.backpointer? s a = some (.binary p k) → ∃ b b' before after,
          (g.production p).rhs = [.nonterm b, .nonterm b'] ∧ entries = before ++ (s, a) :: after ∧
            (⟨s.first, k⟩, b) ∈ before ∧ (⟨k + 1, s.last⟩, b') ∈ before) ∧
      (¬Table.HasRoom memory w.length g.size → (recognize g w limits memory).chart = none ∧
        (recognize g w limits memory).events =
          [.finished (recognize g w limits memory).verdict]) := by
  refine ⟨fun hroom ↦ ?_, fun hroom ↦ ?_⟩
  · obtain ⟨es, hreports⟩ := reports_fill (w := w) hg
    have hIn : Filling.Final g w = fun s a ↦ (fill g w).table.contains s a = true := by
      ext s a
      exact (has_fill_iff hg).symm
    have hevents : (recognize g w limits memory).events =
        (es.reverse.map fun e ↦ .cellFilled e.1 e.2) ++
          [.finished (recognize g w limits memory).verdict] := by
      rw [recognize_of_hasRoom h hroom, List.map_reverse, ← hreports.events_eq]
      rfl
    have hmem : ∀ s a, (s, a) ∈ es.reverse ↔ (fill g w).table.contains s a = true := fun s a ↦ by
      rw [List.mem_reverse, hreports.mem_iff, Filling.Has]
    have hpairwise : es.reverse.Pairwise (FoundBefore g (Filling.Final g w)) :=
      List.pairwise_reverse.2 hreports.pairwise
    exact ⟨_, es.reverse, chart_eq_some_iff.2 ⟨⟨h, hroom⟩, rfl⟩, hevents,
      (List.reverse_perm es).nodup_iff.2 hreports.nodup, hmem, hIn ▸ hpairwise,
      fun _ _ _ _ hb ↦ parts_before hmem hpairwise hb⟩
  · rw [recognize_of_not_hasRoom h hroom]
    exact ⟨rfl, rfl⟩

/-- In `S → D A`, `T → A D | D A`, `D → A A`, `A → a` the input `a a a` is found for `T` at its
first split and for `S` at its second one only, and so for `T` before `S`. -/
theorem events_account_two_splits :
    let g : Grammar := ⟨["S", "T", "D", "A"], [⟨⟨0⟩, [.nonterm ⟨2⟩, .nonterm ⟨3⟩]⟩,
      ⟨⟨1⟩, [.nonterm ⟨3⟩, .nonterm ⟨2⟩]⟩, ⟨⟨1⟩, [.nonterm ⟨2⟩, .nonterm ⟨3⟩]⟩,
      ⟨⟨2⟩, [.nonterm ⟨3⟩, .nonterm ⟨3⟩]⟩, ⟨⟨3⟩, [.term 'a']⟩], ⟨0⟩⟩
    (recognize g ['a', 'a', 'a'] {}).events = [.cellFilled ⟨0, 0⟩ ⟨3⟩, .cellFilled ⟨1, 1⟩ ⟨3⟩,
      .cellFilled ⟨2, 2⟩ ⟨3⟩, .cellFilled ⟨0, 1⟩ ⟨2⟩, .cellFilled ⟨1, 2⟩ ⟨2⟩,
      .cellFilled ⟨0, 2⟩ ⟨1⟩, .cellFilled ⟨0, 2⟩ ⟨0⟩, .finished .accepted] ∧
    ∃ c entries, (recognize g ['a', 'a', 'a'] {}).chart = some c ∧ entries.length = 7 ∧
      entries.Pairwise (FoundBefore g (c.contains · · = true)) ∧
      ∃ before after, entries = before ++ (⟨0, 2⟩, ⟨1⟩) :: after ∧
        (⟨0, 1⟩, ⟨2⟩) ∈ before ∧ (⟨2, 2⟩, ⟨3⟩) ∈ before := by
  intro g
  have hlist : (recognize g ['a', 'a', 'a'] {}).events = [.cellFilled ⟨0, 0⟩ ⟨3⟩,
      .cellFilled ⟨1, 1⟩ ⟨3⟩, .cellFilled ⟨2, 2⟩ ⟨3⟩, .cellFilled ⟨0, 1⟩ ⟨2⟩,
      .cellFilled ⟨1, 2⟩ ⟨2⟩, .cellFilled ⟨0, 2⟩ ⟨1⟩, .cellFilled ⟨0, 2⟩ ⟨0⟩,
      .finished .accepted] := by decide +kernel
  obtain ⟨haccount, -⟩ := @events_account g ['a', 'a', 'a'] {} .standard (by decide) (by decide)
  obtain ⟨c, entries, hchart, hevents, -, -, hpairwise, hbinary⟩ := haccount (by decide)
  have hreason : (recognize g ['a', 'a', 'a'] {}).chart.map (·.backpointer? ⟨0, 2⟩ ⟨1⟩) =
      some (some (.binary ⟨2⟩ 1)) := by decide +kernel
  rw [hchart, Option.map_some, Option.some.injEq] at hreason
  obtain ⟨b, b', before, after, hrhs, heq, hleft, hright⟩ := hbinary _ _ _ _ hreason
  obtain ⟨rfl, rfl⟩ : (⟨2⟩ : NonTerm) = b ∧ (⟨3⟩ : NonTerm) = b' := by
    simpa [g, Grammar.production] using hrhs
  have hlength := congrArg List.length (hevents.symm.trans hlist)
  exact ⟨hlist, c, entries, hchart, by simpa using hlength, hpairwise, before, after, heq, hleft,
    hright⟩

end ContextFree.Cyk
