import ContextFree.Proofs.Cyk.Reasons

/-!
# Which reason is kept

Of the reasons that an entry has, a table keeps the last one recorded.  On a span of one position
that is the last production of the character.  On a longer span it is the one of the largest split
at which some production applies, and of the last production that applies there.

Both follow from the order of the attempts.  Whether an attempt succeeds does not depend on the cell
that is being filled, so the reason that survives a sequence of attempts is the one of the last
attempt that would have succeeded at first; and the parts of a span are filled for good when the
span is, so what applies at first applies in the end.
-/

namespace ContextFree

/-! ## Last elements -/

section IsLast

variable {α β : Type _} {P : α → Prop} {l l' : List α} {x y : α}

/-- The element is the last one of the list with the property. -/
def IsLast (P : α → Prop) (l : List α) (x : α) : Prop :=
  ∃ front back, l = front ++ x :: back ∧ P x ∧ ∀ y ∈ back, ¬P y

namespace IsLast

theorem mem (h : IsLast P l x) : x ∈ l := by
  obtain ⟨front, back, rfl, -⟩ := h
  simp

theorem holds (h : IsLast P l x) : P x := by
  obtain ⟨front, back, -, hx, -⟩ := h
  exact hx

theorem congr {Q : α → Prop} (hPQ : ∀ a ∈ l, P a ↔ Q a) (h : IsLast P l x) : IsLast Q l x := by
  have hx := (hPQ x h.mem).1 h.holds
  obtain ⟨front, back, rfl, -, hback⟩ := h
  exact ⟨front, back, rfl, hx, fun y hy hQ ↦
    hback y hy ((hPQ y (List.mem_append_right _ (.tail _ hy))).2 hQ)⟩

theorem append_left (l' : List α) (h : IsLast P l x) : IsLast P (l' ++ l) x := by
  obtain ⟨front, back, rfl, hx, hback⟩ := h
  exact ⟨l' ++ front, back, by rw [List.append_assoc], hx, hback⟩

theorem append_right (h : IsLast P l x) (hl' : ∀ y ∈ l', ¬P y) : IsLast P (l ++ l') x := by
  obtain ⟨front, back, rfl, hx, hback⟩ := h
  refine ⟨front, back ++ l', by rw [List.append_assoc, List.cons_append], hx, fun y hy ↦ ?_⟩
  exact (List.mem_append.1 hy).elim (hback y) (hl' y)

/-- In an ordered list, nothing behind the last element with the property has it. -/
theorem not_of_lt {R : α → α → Prop} (hR : ∀ a b, R a b → ¬R b a) (hl : l.Pairwise R)
    (h : IsLast P l x) (hy : y ∈ l) (hxy : R x y) : ¬P y := by
  obtain ⟨front, back, rfl, -, hback⟩ := h
  obtain ⟨-, -, hfront⟩ := List.pairwise_append.1 hl
  rcases List.mem_append.1 hy with hy | hy
  · exact absurd (hfront y hy x (.head _)) (hR _ _ hxy)
  · rcases List.mem_cons.1 hy with rfl | hy
    · exact absurd hxy (hR _ _ hxy)
    · exact hback y hy

end IsLast

theorem isLast_append_iff :
    IsLast P (l ++ l') x ↔ IsLast P l' x ∨ IsLast P l x ∧ ∀ y ∈ l', ¬P y := by
  constructor
  · rintro ⟨front, back, heq, hx, hback⟩
    rcases List.append_eq_append_iff.1 heq with ⟨m, hfront, rfl⟩ | ⟨m, rfl, hm⟩
    · exact .inl ⟨m, back, rfl, hx, hback⟩
    · cases m with
      | nil => exact .inl ⟨[], back, hm.symm, hx, hback⟩
      | cons y m =>
        obtain ⟨rfl, rfl⟩ := List.cons.inj hm
        exact .inr ⟨⟨front, m, rfl, hx, fun y hy ↦ hback y (List.mem_append_left _ hy)⟩,
          fun y hy ↦ hback y (List.mem_append_right _ hy)⟩
  · rintro (h | ⟨h, hl'⟩)
    · exact h.append_left l
    · exact h.append_right hl'

/-- There is one last element. -/
theorem IsLast.unique (h : IsLast P l x) (h' : IsLast P l y) : x = y := by
  obtain ⟨front, back, rfl, hx, hback⟩ := h
  rw [List.append_cons, isLast_append_iff, isLast_append_iff] at h'
  rcases h' with h' | ⟨h' | ⟨-, hnone⟩, -⟩
  · exact absurd h'.holds (hback y h'.mem)
  · exact (List.mem_singleton.1 h'.mem).symm
  · exact absurd hx (hnone x (.head _))

/-- The last element of blocks put together is the last one of the last block that has any. -/
theorem IsLast.of_flatMap {f : β → List α} {bs : List β} (h : IsLast P (bs.flatMap f) x) :
    ∃ b, IsLast (fun b ↦ ∃ y ∈ f b, P y) bs b ∧ IsLast P (f b) x := by
  induction bs with
  | nil => exact absurd h.mem List.not_mem_nil
  | cons b bs ih =>
    rw [List.flatMap_cons] at h
    rcases isLast_append_iff.1 h with h | ⟨h, hnone⟩
    · obtain ⟨b', hb', hx⟩ := ih h
      exact ⟨b', hb'.append_left [b], hx⟩
    · refine ⟨b, ⟨[], bs, rfl, ⟨x, h.mem, h.holds⟩, ?_⟩, h⟩
      rintro b' hb' ⟨y, hy, hPy⟩
      exact hnone y (List.mem_flatMap.2 ⟨b', hb', hy⟩) hPy

/-- The last image with the property is the image of the last element that has such an image. -/
theorem IsLast.of_filterMap {f : β → Option α} {bs : List β} (h : IsLast P (bs.filterMap f) x) :
    ∃ b, IsLast (fun b ↦ ∃ y, f b = some y ∧ P y) bs b ∧ f b = some x := by
  obtain ⟨front, back, heq, hx, hback⟩ := h
  obtain ⟨bs₁, bs₂, rfl, -, heq⟩ := List.filterMap_eq_append_iff.1 heq
  obtain ⟨bs₃, b, bs₄, rfl, -, hb, rfl⟩ := List.filterMap_eq_cons_iff.1 heq
  refine ⟨b, ⟨bs₁ ++ bs₃, bs₄, by rw [List.append_assoc], ⟨x, hb, hx⟩, ?_⟩, hb⟩
  rintro b' hb' ⟨y, hy, hPy⟩
  exact hback y (List.mem_filterMap.2 ⟨b', hb', hy⟩) hPy

end IsLast

namespace Cyk

variable {g : Grammar} {w : List Char}

/-! ## The last reason there is -/

/-- The production is `A → B C`, and its two symbols cover the parts of the span that is split
behind position `k`. -/
def AppliesAt (g : Grammar) (In : Span → NonTerm → Prop) (s : Span) (k : Nat) (p : ProdId) : Prop :=
  ∃ b c, (g.production p).rhs = [.nonterm b, .nonterm c] ∧ In ⟨s.first, k⟩ b ∧ In ⟨k + 1, s.last⟩ c

/-- Of the reasons for an entry, the one of the largest split and of the last production there. -/
inductive LastReason (g : Grammar) (w : List Char) (In : Span → NonTerm → Prop) :
    Span → NonTerm → Backpointer → Prop where
  | terminal {i : Nat} {a : NonTerm} {c : Char} {p : ProdId} (hc : w[i]? = some c)
      (hp : IsLast (fun q ↦ (g.production q).rhs = [.term c]) (g.alternatives a) p) :
      LastReason g w In ⟨i, i⟩ a (.terminal p)
  | binary {s : Span} {a : NonTerm} {k : Nat} {p : ProdId} (hfirst : s.first ≤ k)
      (hlast : k < s.last) (hp : IsLast (AppliesAt g In s k) (g.alternatives a) p)
      (hmax : ∀ k', k < k' → k' < s.last → ∀ q ∈ g.alternatives a, ¬AppliesAt g In s k' q) :
      LastReason g w In s a (.binary p k)

/-- An entry has one last reason. -/
theorem LastReason.unique {In : Span → NonTerm → Prop} {s : Span} {a : NonTerm}
    {b b' : Backpointer} (h : LastReason g w In s a b) (h' : LastReason g w In s a b') : b = b' := by
  cases h with
  | terminal hc hp =>
    cases h' with
    | terminal hc' hp' =>
      obtain rfl := Option.some.inj (hc.symm.trans hc')
      rw [hp.unique hp']
    | binary hfirst hlast => exact absurd hlast (Nat.not_lt.2 hfirst)
  | @binary _ _ k p hfirst hlast hp hmax =>
    cases h' with
    | terminal => exact absurd hlast (Nat.not_lt.2 hfirst)
    | @binary _ _ k' p' hfirst' hlast' hp' hmax' =>
      rcases Nat.lt_trichotomy k k' with hlt | rfl | hlt
      · exact absurd hp'.holds (hmax k' hlt hlast' p' hp'.mem)
      · rw [hp.unique hp']
      · exact absurd hp.holds (hmax' k hlt hlast p hp.mem)

/-- Rules come by their left-hand sides, and those of one left-hand side in the order of their
productions.  So the last rule for a non-terminal is the one of its last production. -/
theorem exists_isLast_of_rules {Rule : Type} (lhs : Rule → NonTerm)
    {f : NonTerm → ProdId → Option Rule} (hf : ∀ a p r, f a p = some r → lhs r = a) {P : Rule → Prop}
    {a : NonTerm} (hP : ∀ r, P r → lhs r = a) {r : Rule}
    (h : IsLast P (g.nonterms.flatMap fun a ↦ (g.alternatives a).filterMap (f a)) r) :
    ∃ p, IsLast (fun q ↦ ∃ r, f a q = some r ∧ P r) (g.alternatives a) p ∧ f a p = some r := by
  obtain ⟨a', -, hr⟩ := h.of_flatMap
  obtain ⟨p, hp, heq⟩ := hr.of_filterMap
  obtain rfl : a' = a := (hf a' p r heq).symm.trans (hP r hr.holds)
  exact ⟨p, hp, heq⟩

theorem isLast_of_terminalRules {a : NonTerm} {c : Char} {r : TerminalRule}
    (h : IsLast (fun r ↦ r.terminal = c ∧ r.lhs = a) (terminalRules g) r) :
    IsLast (fun q ↦ (g.production q).rhs = [.term c]) (g.alternatives a) r.production := by
  rw [terminalRules_eq] at h
  obtain ⟨p, hp, heq⟩ := exists_isLast_of_rules TerminalRule.lhs
    (fun a q r hr ↦ (TerminalRule.of?_eq_some.1 hr).1) (fun _ hr ↦ hr.2) h
  obtain ⟨-, rfl, -⟩ := TerminalRule.of?_eq_some.1 heq
  refine hp.congr fun q _ ↦ ?_
  simp only [TerminalRule.of?_eq_some]
  constructor
  · rintro ⟨r', ⟨-, -, hrhs⟩, rfl, -⟩
    exact hrhs
  · intro hrhs
    exact ⟨⟨a, q, c⟩, ⟨rfl, rfl, hrhs⟩, rfl, rfl⟩

theorem isLast_of_binaryRules {In : Span → NonTerm → Prop} {s : Span} {k : Nat} {a : NonTerm}
    {r : BinaryRule}
    (h : IsLast (fun r ↦ (In ⟨s.first, k⟩ r.left ∧ In ⟨k + 1, s.last⟩ r.right) ∧ r.lhs = a)
      (binaryRules g) r) :
    IsLast (AppliesAt g In s k) (g.alternatives a) r.production := by
  rw [binaryRules_eq] at h
  obtain ⟨p, hp, heq⟩ := exists_isLast_of_rules BinaryRule.lhs
    (fun a q r hr ↦ (BinaryRule.of?_eq_some.1 hr).1) (fun _ hr ↦ hr.2) h
  obtain ⟨-, rfl, -⟩ := BinaryRule.of?_eq_some.1 heq
  refine hp.congr fun q _ ↦ ?_
  simp only [BinaryRule.of?_eq_some, AppliesAt]
  constructor
  · rintro ⟨r', ⟨-, -, hrhs⟩, ⟨hleft, hright⟩, -⟩
    exact ⟨_, _, hrhs, hleft, hright⟩
  · rintro ⟨b, c, hrhs, hleft, hright⟩
    exact ⟨⟨a, q, b, c⟩, ⟨rfl, rfl, hrhs⟩, ⟨hleft, hright⟩, rfl⟩

/-- The last attempt on a span that succeeds is the one of the largest split, and of the last
production there. -/
theorem lastReason_of_attempts {In : Span → NonTerm → Prop} {s : Span} {a : NonTerm}
    {x : Nat × BinaryRule}
    (h : IsLast (fun x ↦ (In ⟨s.first, x.1⟩ x.2.left ∧ In ⟨x.1 + 1, s.last⟩ x.2.right) ∧
      x.2.lhs = a) (Filling.attempts (binaryRules g) s) x) :
    LastReason g w In s a (.binary x.2.production x.1) := by
  obtain ⟨hfirst, hlast, hrule⟩ := Filling.mem_attempts.1 h.mem
  have ha : a.index < g.size := h.holds.2 ▸ (mem_binaryRules.1 hrule).1
  rw [Filling.attempts] at h
  obtain ⟨k, hk, hx⟩ := h.of_flatMap
  rw [← List.filterMap_eq_map] at hx
  obtain ⟨r, hr, heq⟩ := hx.of_filterMap
  obtain rfl : (k, r) = x := Option.some.inj heq
  refine .binary hfirst hlast (isLast_of_binaryRules (hr.congr fun r' _ ↦ by simp)) ?_
  rintro k' hlt hlast' q hq ⟨b, c, hrhs, hleft, hright⟩
  have hk' : k' ∈ List.range' s.first (s.last - s.first) :=
    List.mem_range'_1.2 ⟨by omega, by omega⟩
  have hmem : ⟨a, q, b, c⟩ ∈ binaryRules g := mem_binaryRules.2 ⟨ha, hq, hrhs⟩
  exact hk.not_of_lt (fun _ _ ↦ Nat.lt_asymm) (List.pairwise_lt_range' 1) hk' hlt
    ⟨_, List.mem_map_of_mem hmem, ⟨hleft, hright⟩, rfl⟩

/-! ## The reason that survives -/

namespace Filling

variable {n m : Nat} {f : Filling}

/-- After a sequence of attempts on one cell, whose conditions do not depend on that cell, the
reason of an entry is the one of the last attempt whose condition held at first.  If there is none,
the reason was there before. -/
theorem isLast_of_backpointer?_foldl {α : Type} {s : Span} {holds : Filling → α → Bool}
    {lhs : α → NonTerm} {reason : α → Backpointer} (hs : s.Within n) {l : List α}
    (hholds : ∀ x ∈ l, ∀ f f' : Filling, (∀ s' a, s' ≠ s → (f'.Has s' a ↔ f.Has s' a)) →
      holds f' x = holds f x)
    (hl : ∀ x ∈ l, (lhs x).index < m) (h : f.Fits n m) {s' : Span} {a : NonTerm} {b : Backpointer}
    (hb : (l.foldl (recordIf s holds lhs reason) f).table.backpointer? s' a = some b) :
    (s' = s ∧ ∃ x, IsLast (fun x ↦ holds f x = true ∧ lhs x = a) l x ∧ reason x = b) ∨
      f.table.backpointer? s' a = some b ∧
        (s' = s → ∀ x ∈ l, ¬(holds f x = true ∧ lhs x = a)) := by
  induction l generalizing f with
  | nil => exact .inr ⟨hb, fun _ ↦ nofun⟩
  | cons x l ih =>
    rw [List.foldl_cons, recordIf] at hb
    have ih' := fun {f : Filling} ↦ @ih f (fun y hy ↦ hholds y (.tail _ hy))
      (fun y hy ↦ hl y (.tail _ hy))
    split at hb
    case isTrue hcond =>
      have hrecord := has_record h hs (hl x (.head _)) (reason x)
      have hsame : ∀ y ∈ l, holds (f.record s (lhs x) (reason x)) y = holds f y := fun y hy ↦
        hholds y (.tail _ hy) _ _ fun s' a hne ↦ by simp [hrecord, hne]
      rcases ih' (h.record s (lhs x) (reason x)) hb with ⟨rfl, y, hy, rfl⟩ | ⟨hold, hnone⟩
      · exact .inl ⟨rfl, y, (hy.congr fun z hz ↦ by rw [hsame z hz]).append_left [x], rfl⟩
      · -- no later attempt on the entry succeeded, so it has the reason of `x`, or its old one
        have hrest : s' = s → ∀ y ∈ l, ¬(holds f y = true ∧ lhs y = a) := fun hs' y hy ↦
          hsame y hy ▸ hnone hs' y hy
        rw [table_record, Table.backpointer?_record h.sized (h.width_eq ▸ hs)] at hold
        split at hold
        case isTrue heq =>
          obtain ⟨rfl, rfl⟩ := heq
          exact .inl ⟨rfl, x, ⟨[], l, rfl, ⟨hcond, rfl⟩, hrest rfl⟩, Option.some.inj hold⟩
        case isFalse hne =>
          exact .inr ⟨hold, fun hs' ↦ List.forall_mem_cons.2
            ⟨fun hx ↦ hne ⟨hs', hx.2.symm⟩, hrest hs'⟩⟩
    case isFalse hcond =>
      rcases ih' h hb with ⟨rfl, y, hy, rfl⟩ | ⟨hold, hnone⟩
      · exact .inl ⟨rfl, y, hy.append_left [x], rfl⟩
      · exact .inr ⟨hold, fun hs' ↦ List.forall_mem_cons.2 ⟨fun hx ↦ hcond hx.1, hnone hs'⟩⟩

/-! ## One cell -/

/-- What the table holds in the end. -/
def Final (g : Grammar) (w : List Char) (s : Span) (a : NonTerm) : Prop :=
  s.Within w.length ∧ Covers g w s a

/-- Every reason in the table is the one that is kept in the end. -/
def KeepsLast (g : Grammar) (w : List Char) (f : Filling) : Prop :=
  ∀ s a b, f.table.backpointer? s a = some b → LastReason g w (Final g w) s a b

theorem keepsLast_empty (g : Grammar) (w : List Char) :
    KeepsLast g w ⟨.empty w.length g.size, []⟩ := fun s a b hb ↦ by
  rw [Table.backpointer?_empty] at hb
  cases hb

theorem KeepsLast.fillPosition (hkeep : f.KeepsLast g w) (h : f.Fits w.length g.size) {c : Char}
    {i : Nat} (hc : w[i]? = some c) : (f.fillPosition (terminalRules g) (c, i)).KeepsLast g w := by
  intro s a b hb
  have hi := (List.getElem?_eq_some_iff.1 hc).1
  rw [fillPosition_eq] at hb
  rcases isLast_of_backpointer?_foldl (n := w.length) ⟨Nat.le_refl i, hi⟩ (fun _ _ _ _ _ ↦ rfl)
    (fun r hr ↦ (mem_terminalRules.1 hr).1) h hb with ⟨rfl, r, hr, rfl⟩ | ⟨hold, -⟩
  · exact .terminal hc (isLast_of_terminalRules (hr.congr fun r _ ↦ by simp))
  · exact hkeep s a b hold

/-- The table holds on the spans up to a length what it holds in the end. -/
structure FinalUpTo (g : Grammar) (w : List Char) (length : Nat) (f : Filling) : Prop where
  fits : f.Fits w.length g.size
  has_iff : ∀ s a, s.length ≤ length → (f.Has s a ↔ Final g w s a)

theorem ExactUpTo.finalUpTo {length : Nat} (h : f.ExactUpTo g w length) :
    f.FinalUpTo g w length where
  fits := h.fits
  has_iff s a hs := by rw [h.has_iff, and_iff_right hs, Final]

/-- Filling a longer span touches no shorter one. -/
theorem FinalUpTo.fillSpan {length : Nat} (h : f.FinalUpTo g w length) {s : Span}
    (hs : s.Within w.length) (hlength : length < s.length) :
    (f.fillSpan (binaryRules g) s).FinalUpTo g w length := by
  obtain ⟨hfits, hhas⟩ := has_fillSpan hs rfl h.fits
  refine ⟨hfits, fun s' a hs' ↦ ?_⟩
  rw [hhas, or_iff_left, h.has_iff s' a hs']
  rintro ⟨rfl, -⟩
  exact Nat.not_le.2 hlength hs'

/-- Whether a production applies to a split of a span of the next length is known for good. -/
theorem FinalUpTo.appliesAt_iff {length : Nat} (h : f.FinalUpTo g w length) {s : Span}
    (hlength : s.length = length + 1) {x : Nat × BinaryRule} (hfirst : s.first ≤ x.1)
    (hlast : x.1 < s.last) :
    appliesAt s f x = true ↔
      Final g w ⟨s.first, x.1⟩ x.2.left ∧ Final g w ⟨x.1 + 1, s.last⟩ x.2.right := by
  simp only [Span.length] at hlength
  rw [appliesAt, Bool.and_eq_true, ← Has, ← Has, h.has_iff _ _ (by simp only [Span.length]; omega),
    h.has_iff _ _ (by simp only [Span.length]; omega)]

theorem KeepsLast.fillSpan (hkeep : f.KeepsLast g w) {length : Nat} (h : f.FinalUpTo g w length)
    {s : Span} (hs : s.Within w.length) (hlength : s.length = length + 1) :
    (f.fillSpan (binaryRules g) s).KeepsLast g w := by
  intro s' a b hb
  rw [fillSpan_eq] at hb
  rcases isLast_of_backpointer?_foldl hs (fun x hx ↦ appliesAt_congr hx)
    (fun x hx ↦ (mem_binaryRules.1 (mem_attempts.1 hx).2.2).1) h.fits hb with
    ⟨rfl, x, hx, rfl⟩ | ⟨hold, -⟩
  · refine lastReason_of_attempts (hx.congr fun y hy ↦ ?_)
    obtain ⟨hfirst, hlast, -⟩ := mem_attempts.1 hy
    rw [h.appliesAt_iff hlength hfirst hlast]
  · exact hkeep s' a b hold

/-! ## All cells -/

theorem ExactUpTo.keepsLast_succ {length : Nat} (h : f.ExactUpTo g w length)
    (hkeep : f.KeepsLast g w) :
    ((spansOfLength w.length (length + 1)).foldl (fillSpan (binaryRules g)) f).KeepsLast g w := by
  have hboth : ∀ f : Filling, f.FinalUpTo g w length ∧ f.KeepsLast g w →
      ∀ s ∈ spansOfLength w.length (length + 1),
        (f.fillSpan (binaryRules g) s).FinalUpTo g w length ∧
          (f.fillSpan (binaryRules g) s).KeepsLast g w := by
    rintro f ⟨hfinal, hkeep⟩ s hs
    obtain ⟨hwithin, hlength⟩ := (mem_spansOfLength (Nat.succ_pos length)).1 hs
    exact ⟨hfinal.fillSpan hwithin (Nat.lt_of_lt_of_eq (Nat.lt_succ_self _) hlength.symm),
      hkeep.fillSpan hfinal hwithin hlength⟩
  exact (List.foldlRecOn _ _ (motive := fun f : Filling ↦ f.FinalUpTo g w length ∧ f.KeepsLast g w)
    ⟨h.finalUpTo, hkeep⟩ hboth).2

/-- Filling the spans of the next `k` lengths, the shorter ones first. -/
theorem ExactUpTo.keepsLast_add (hg : g.WellFormed) {length : Nat} (hpos : 0 < length)
    (h : f.ExactUpTo g w length) (hkeep : f.KeepsLast g w) (k : Nat) :
    (((List.range' (length + 1) k).flatMap (spansOfLength w.length)).foldl
      (fillSpan (binaryRules g)) f).KeepsLast g w := by
  induction k generalizing length f with
  | zero => exact hkeep
  | succ k ih =>
    rw [List.range'_succ, List.flatMap_cons, List.foldl_append]
    exact ih (Nat.succ_pos length) (h.succ hg hpos) (h.keepsLast_succ hkeep)

theorem keepsLast_diagonal (g : Grammar) (w : List Char) :
    (w.zipIdx.foldl (fillPosition (terminalRules g))
      ⟨.empty w.length g.size, []⟩).KeepsLast g w := by
  have hboth : ∀ f : Filling, f.Fits w.length g.size ∧ f.KeepsLast g w → ∀ x ∈ w.zipIdx,
      (f.fillPosition (terminalRules g) x).Fits w.length g.size ∧
        (f.fillPosition (terminalRules g) x).KeepsLast g w := by
    rintro f ⟨hfits, hkeep⟩ ⟨c, i⟩ hx
    have hc : w[i]? = some c := List.mem_zipIdx_iff_getElem?.1 hx
    exact ⟨(has_fillPosition (List.getElem?_eq_some_iff.1 hc).1 rfl hfits).1,
      hkeep.fillPosition hfits hc⟩
  have hfits : Fits w.length g.size ⟨.empty w.length g.size, []⟩ :=
    ⟨Table.sized_empty _ _, rfl, rfl⟩
  exact (List.foldlRecOn _ _
    (motive := fun f : Filling ↦ f.Fits w.length g.size ∧ f.KeepsLast g w)
    ⟨hfits, keepsLast_empty g w⟩ hboth).2

end Filling

theorem keepsLast_fill (hg : g.WellFormed) : (fill g w).KeepsLast g w :=
  (Filling.exactUpTo_one hg).keepsLast_add hg Nat.one_pos (Filling.keepsLast_diagonal g w) _

/-! ## Charts -/

theorem LastReason.congr {In In' : Span → NonTerm → Prop} (hIn : ∀ s a, In s a ↔ In' s a) {s : Span}
    {a : NonTerm} {b : Backpointer} (h : LastReason g w In s a b) : LastReason g w In' s a b := by
  obtain rfl : In = In' := by
    ext s a
    exact hIn s a
  exact h

/-- In a filled table, an entry has the last reason that there is for it by the other entries. -/
theorem lastReason_of_fill (hg : g.WellFormed) {s : Span} {a : NonTerm} {b : Backpointer}
    (h : (fill g w).table.backpointer? s a = some b) :
    LastReason g w (fun s a ↦ (fill g w).table.contains s a = true) s a b :=
  (keepsLast_fill hg s a b h).congr fun _ _ ↦ (has_fill_iff hg).symm

/-- How ties are broken.  An entry on a span of one position has the last production of the
character, and no parts.  An entry on a longer span has the largest split of the span at which one
of its productions applies to the entries of the chart, the two parts that this split makes, and the
last of the productions that apply there.  Where there is no entry, there is no reason. -/
theorem backpointer_tie_break {limits : Limits} {memory : Memory} (hg : g.WellFormed)
    (h : w.length ≤ limits.maxLength) (hroom : Table.HasRoom memory w.length g.size) :
    ∃ c, (recognize g w limits memory).chart = some c ∧
      (∀ i a, c.contains ⟨i, i⟩ a = true → ∃ b ch, c.backpointer? ⟨i, i⟩ a = some b ∧
        b.left? ⟨i, i⟩ = none ∧ b.right? ⟨i, i⟩ = none ∧ w[i]? = some ch ∧
        IsLast (fun p ↦ (g.production p).rhs = [.term ch]) (g.alternatives a) b.production) ∧
      (∀ s a, s.first < s.last → c.contains s a = true →
        ∃ b k, c.backpointer? s a = some b ∧ s.first ≤ k ∧ k < s.last ∧
          b.left? s = some ⟨s.first, k⟩ ∧ b.right? s = some ⟨k + 1, s.last⟩ ∧
          IsLast (AppliesAt g (c.contains · · = true) s k) (g.alternatives a) b.production ∧
          ∀ k', k < k' → k' < s.last → ∀ p ∈ g.alternatives a,
            ¬AppliesAt g (c.contains · · = true) s k' p) ∧
      ∀ s a, ¬(s.Within w.length ∧ a.index < g.size ∧ c.contains s a = true) →
        c.backpointer? s a = none := by
  have hjustified := justified_fill g w
  refine ⟨_, chart_eq_some_iff.2 ⟨⟨h, hroom⟩, rfl⟩, fun i a ha ↦ ?_, fun s a hlt ha ↦ ?_,
    fun s a hnot ↦ ?_⟩
  · obtain ⟨b, hb⟩ := Option.isSome_iff_exists.1 ((hjustified.isSome_iff _ a).2 ha)
    cases lastReason_of_fill hg hb with
    | terminal hc hp => exact ⟨_, _, hb, rfl, rfl, hc, hp⟩
    | binary hfirst hlast => exact absurd hlast (Nat.not_lt.2 hfirst)
  · obtain ⟨b, hb⟩ := Option.isSome_iff_exists.1 ((hjustified.isSome_iff s a).2 ha)
    cases lastReason_of_fill hg hb with
    | terminal => exact absurd hlt (Nat.lt_irrefl _)
    | @binary _ _ k p hfirst hlast hp hmax =>
      exact ⟨_, k, hb, hfirst, hlast, rfl, rfl, hp, hmax⟩
  · refine Option.eq_none_iff_forall_ne_some.2 fun b hb ↦ hnot ?_
    have ha : (fill g w).Has s a := (hjustified.isSome_iff s a).1 (Option.isSome_iff_exists.2 ⟨b, hb⟩)
    exact ⟨((has_fill_iff hg).1 ha).1, (hjustified.supports s a b hb).lhs_lt, ha⟩

/-- In `S → S S | T T | S S`, `T → a`, `S → a | a` two productions are written twice, and `a a a` is
split in two ways. -/
theorem backpointer_tie_break_duplicates :
    let g : Grammar := ⟨["S", "T"], [⟨⟨0⟩, [.nonterm ⟨0⟩, .nonterm ⟨0⟩]⟩,
      ⟨⟨0⟩, [.nonterm ⟨1⟩, .nonterm ⟨1⟩]⟩, ⟨⟨0⟩, [.nonterm ⟨0⟩, .nonterm ⟨0⟩]⟩,
      ⟨⟨1⟩, [.term 'a']⟩, ⟨⟨0⟩, [.term 'a']⟩, ⟨⟨0⟩, [.term 'a']⟩], ⟨0⟩⟩
    ∃ c, (recognize g ['a', 'a', 'a'] {}).chart = some c ∧
      (∃ b, c.backpointer? ⟨0, 0⟩ ⟨0⟩ = some b ∧
        IsLast (fun p ↦ (g.production p).rhs = [.term 'a']) (g.alternatives ⟨0⟩) b.production) ∧
      (∃ b k, c.backpointer? ⟨0, 2⟩ ⟨0⟩ = some b ∧ b.right? ⟨0, 2⟩ = some ⟨k + 1, 2⟩ ∧
        IsLast (AppliesAt g (c.contains · · = true) ⟨0, 2⟩ k) (g.alternatives ⟨0⟩) b.production) ∧
      c.backpointer? ⟨0, 3⟩ ⟨0⟩ = none := by
  intro g
  obtain ⟨c, hc, hone, hlong, hnone⟩ :=
    @backpointer_tie_break g ['a', 'a', 'a'] {} .standard (by decide) (by decide) (by decide)
  have hcontains : (recognize g ['a', 'a', 'a'] {}).chart.map
      (fun c ↦ (c.contains ⟨0, 0⟩ ⟨0⟩, c.contains ⟨0, 2⟩ ⟨0⟩)) = some (true, true) := by
    decide +kernel
  rw [hc, Option.map_some, Option.some.injEq, Prod.mk.injEq] at hcontains
  obtain ⟨b, ch, hb, -, -, hch, hlast⟩ := hone 0 ⟨0⟩ hcontains.1
  obtain ⟨b', k, hb', -, -, -, hright, hlast', -⟩ := hlong ⟨0, 2⟩ ⟨0⟩ (by decide) hcontains.2
  obtain rfl : 'a' = ch := Option.some.inj hch
  exact ⟨c, hc, ⟨b, hb, hlast⟩, ⟨b', k, hb', hright, hlast'⟩,
    hnone ⟨0, 3⟩ ⟨0⟩ fun h ↦ absurd h.1 (by decide)⟩

end Cyk

end ContextFree
