import ContextFree.Language.SententialForm
import ContextFree.Proofs.NormalForm.UnitClosure
import Mathlib.Logic.Function.Basic

/-!
# The steps to binary form

Every non-terminal that is made on the way to binary form stands for a form of the grammar: one that
is lifted for its terminal, a helper of a fold for the symbols that are still to be folded.  Read
with these meanings every production that is added is a derivation of the grammar, so nothing new is
generated.  Conversely, a right-hand side that was dealt with is derived by the productions that
were added for it, so nothing is lost.
-/

namespace ContextFree

/-! ## Fresh names -/

theorem freshName_injective : Function.Injective freshName := by
  intro k l h
  have hdigits : Nat.toDigits 10 k = Nat.toDigits 10 l := by
    simpa [freshName] using congrArg String.toList h
  rw [← Nat.ofDigitChars_ten_toDigits (n := k), hdigits, Nat.ofDigitChars_ten_toDigits]

theorem le_freshNumber (used : List String) (k : Nat) : k ≤ freshNumber used k := by
  induction used, k using freshNumber.induct with
  | case1 used k h ih =>
    rw [freshNumber, dif_pos h]
    exact Nat.le_of_succ_le ih
  | case2 used k h => exact Nat.le_of_eq (freshNumber_of_notMem h).symm

/-- The name that is found is not in use.  It is none of the names that were struck off, for these
have smaller numbers. -/
theorem freshName_freshNumber_notMem (used : List String) (k : Nat) :
    freshName (freshNumber used k) ∉ used := by
  induction used, k using freshNumber.induct with
  | case1 used k h ih =>
    rw [freshNumber, dif_pos h]
    intro hmem
    have hlt : k < freshNumber (used.erase (freshName k)) (k + 1) := le_freshNumber _ _
    have hne : freshName (freshNumber (used.erase (freshName k)) (k + 1)) ≠ freshName k :=
      fun heq ↦ Nat.ne_of_gt hlt (freshName_injective heq)
    exact ih ((List.mem_erase_of_ne hne).2 hmem)
  | case2 used k h => rwa [freshNumber_of_notMem h]

/-! ## Meanings -/

/-- What non-terminals stand for. -/
abbrev Meaning := NonTerm → List Symbol

namespace Meaning

/-- The form in which every non-terminal is replaced by what it stands for. -/
def expand (m : Meaning) : List Symbol → List Symbol
  | [] => []
  | .term c :: form => .term c :: m.expand form
  | .nonterm a :: form => m a ++ m.expand form

variable {m m' : Meaning}

@[simp] theorem expand_nil : m.expand [] = [] := rfl

@[simp] theorem expand_term_cons (c : Char) (form : List Symbol) :
    m.expand (.term c :: form) = .term c :: m.expand form := rfl

@[simp] theorem expand_nonterm_cons (a : NonTerm) (form : List Symbol) :
    m.expand (.nonterm a :: form) = m a ++ m.expand form := rfl

/-- Only the non-terminals of a form matter. -/
theorem expand_congr {form : List Symbol} (h : ∀ a, .nonterm a ∈ form → m' a = m a) :
    m'.expand form = m.expand form := by
  induction form with
  | nil => rfl
  | cons s form ih =>
    have ih := ih fun a ha ↦ h a (.tail _ ha)
    cases s with
    | term c => simp [ih]
    | nonterm a => simp [ih, h a (.head _)]

/-- Nothing is replaced where all non-terminals stand for themselves. -/
theorem expand_self (form : List Symbol) : Meaning.expand (fun a ↦ [.nonterm a]) form = form := by
  induction form with
  | nil => rfl
  | cons s form ih => cases s <;> simp [ih]

theorem expand_eq_self {form : List Symbol} (h : ∀ a, .nonterm a ∈ form → m a = [.nonterm a]) :
    m.expand form = form :=
  (expand_congr h).trans (expand_self form)

end Meaning

namespace Binarization

open SententialForm

/-! ## States and what holds of them -/

/-- The grammar that the productions so far make up. -/
def grammar (g : Grammar) (st : Binarization) : Grammar :=
  { g with names := st.names, productions := st.productions }

/-- A state went on from another: nothing was taken back, no meaning was changed. -/
structure Extends (m : Meaning) (st : Binarization) (m' : Meaning) (st' : Binarization) :
    Prop where
  names : st.names <+: st'.names
  productions : ∀ p ∈ st.productions, p ∈ st'.productions
  meaning : ∀ a, a.index < st.names.length → m' a = m a

/-- What holds of every state on the way to the binary form of a grammar. -/
structure Invariant (g : Grammar) (m : Meaning) (st : Binarization) : Prop where
  names_prefix : g.names <+: st.names
  names_nodup : st.names.Nodup
  below : ∀ p ∈ st.productions, Below st.names.length (.nonterm p.lhs :: p.rhs)
  isBinary : ∀ p ∈ st.productions, p.isBinary = true
  /-- The non-terminals of the grammar stand for themselves. -/
  original : ∀ a, a.index < g.size → m a = [.nonterm a]
  derives : ∀ p ∈ st.productions, g.Derives (m p.lhs) (m.expand p.rhs)
  lifted : ∀ c a, (c, a) ∈ st.lifted → m a = [.term c] ∧ ⟨a, [.term c]⟩ ∈ st.productions

variable {g : Grammar} {m m' m'' : Meaning} {st st' st'' : Binarization} {lhs : NonTerm}
  {rhs form : List Symbol}

namespace Extends

theorem refl : Extends m st m st := ⟨List.prefix_rfl, fun _ h ↦ h, fun _ _ ↦ rfl⟩

theorem trans (h : Extends m st m' st') (h' : Extends m' st' m'' st'') :
    Extends m st m'' st'' where
  names := h.names.trans h'.names
  productions p hp := h'.productions p (h.productions p hp)
  meaning a ha := (h'.meaning a (Nat.lt_of_lt_of_le ha h.names.length_le)).trans (h.meaning a ha)

theorem below (h : Extends m st m' st') (hbelow : Below st.names.length form) :
    Below st'.names.length form :=
  hbelow.mono h.names.length_le

theorem expand (h : Extends m st m' st') (hbelow : Below st.names.length form) :
    m'.expand form = m.expand form :=
  Meaning.expand_congr fun a ha ↦ h.meaning a (hbelow a ha)

theorem derives (h : Extends m st m' st') {result : List Symbol}
    (hderives : (st.grammar g).Derives form result) : (st'.grammar g).Derives form result :=
  hderives.mono h.productions

end Extends

theorem Invariant.below_of_owned (inv : Invariant g m st) (h : ∀ s ∈ form, g.Owns s) :
    Below st.names.length form :=
  (below_size_iff.2 h).mono inv.names_prefix.length_le

theorem Invariant.expand_of_owned (inv : Invariant g m st) (h : ∀ s ∈ form, g.Owns s) :
    m.expand form = form :=
  Meaning.expand_eq_self fun a ha ↦ inv.original a (h _ ha a rfl)

/-! ## Single steps -/

theorem extends_fresh (m : Meaning) (st : Binarization) (v : List Symbol) :
    Extends m st (Function.update m st.fresh.1 v) st.fresh.2 where
  names := List.prefix_append _ _
  productions _ hp := hp
  meaning a ha := Function.update_of_ne (by rintro rfl; exact Nat.lt_irrefl _ ha) _ _

/-- A fresh non-terminal may stand for anything. -/
theorem Invariant.fresh (inv : Invariant g m st) (v : List Symbol) :
    Invariant g (Function.update m st.fresh.1 v) st.fresh.2 := by
  have hext := extends_fresh m st v
  have hlhs : ∀ p ∈ st.productions, p.lhs.index < st.names.length :=
    fun p hp ↦ inv.below p hp _ (.head _)
  constructor
  case names_prefix => exact inv.names_prefix.trans hext.names
  case names_nodup =>
    refine List.nodup_append.2 ⟨inv.names_nodup, by simp, ?_⟩
    rintro name hname _ hfresh rfl
    rw [List.mem_singleton] at hfresh
    exact freshName_freshNumber_notMem _ _ (hfresh ▸ hname)
  case below => exact fun p hp ↦ hext.below (inv.below p hp)
  case isBinary => exact inv.isBinary
  case original =>
    intro a ha
    rw [hext.meaning a (Nat.lt_of_lt_of_le ha inv.names_prefix.length_le), inv.original a ha]
  case derives =>
    intro p hp
    rw [hext.meaning _ (hlhs p hp), hext.expand fun a ha ↦ inv.below p hp a (.tail _ ha)]
    exact inv.derives p hp
  case lifted =>
    intro c a h
    obtain ⟨hmeaning, hmem⟩ := inv.lifted c a h
    exact ⟨(hext.meaning a (hlhs _ hmem)).trans hmeaning, hmem⟩

theorem extends_emit : Extends m st m (st.emit lhs rhs) :=
  ⟨List.prefix_rfl, fun _ hp ↦ List.mem_append_left _ hp, fun _ _ ↦ rfl⟩

theorem mem_emit : ⟨lhs, rhs⟩ ∈ (st.emit lhs rhs).productions :=
  List.mem_append_right _ (.head _)

/-- A production may be added if what its left-hand side stands for derives what its right-hand side
stands for. -/
theorem Invariant.emit (inv : Invariant g m st)
    (hbelow : Below st.names.length (.nonterm lhs :: rhs))
    (hbinary : (Production.mk lhs rhs).isBinary = true)
    (hderives : g.Derives (m lhs) (m.expand rhs)) : Invariant g m (st.emit lhs rhs) where
  names_prefix := inv.names_prefix
  names_nodup := inv.names_nodup
  below := List.forall_mem_append.2 ⟨inv.below, List.forall_mem_singleton.2 hbelow⟩
  isBinary := List.forall_mem_append.2 ⟨inv.isBinary, List.forall_mem_singleton.2 hbinary⟩
  original := inv.original
  derives := List.forall_mem_append.2 ⟨inv.derives, List.forall_mem_singleton.2 hderives⟩
  lifted c a h := (inv.lifted c a h).imp_right (List.mem_append_left _)

/-! ## Lifting terminals -/

theorem lift_of_lookup_eq_some {c : Char} {a : NonTerm} (h : st.lifted.lookup c = some a) :
    st.lift c = (a, st) := by
  simp [lift, h]

theorem lift_of_lookup_eq_none {c : Char} (h : st.lifted.lookup c = none) :
    st.lift c = (st.fresh.1,
      { st.fresh.2 with lifted := (c, st.fresh.1) :: st.lifted }.emit st.fresh.1 [.term c]) := by
  simp [lift, h, Binarization.fresh]

/-- The non-terminal for a terminal stands for the terminal and has the production for it. -/
theorem exists_lift (inv : Invariant g m st) (c : Char) :
    ∃ m', Invariant g m' (st.lift c).2 ∧ Extends m st m' (st.lift c).2 ∧
      m' (st.lift c).1 = [.term c] ∧ ⟨(st.lift c).1, [.term c]⟩ ∈ (st.lift c).2.productions := by
  cases hlookup : st.lifted.lookup c with
  | some a =>
    obtain ⟨l₁, l₂, hlifted, -⟩ := List.lookup_eq_some_iff.1 hlookup
    have hmem : (c, a) ∈ st.lifted := by simp [hlifted]
    rw [lift_of_lookup_eq_some hlookup]
    exact ⟨m, inv, .refl, inv.lifted c a hmem⟩
  | none =>
    have inv₁ := inv.fresh [.term c]
    have hext₁ := extends_fresh m st [.term c]
    have hmeaning : Function.update m st.fresh.1 [.term c] st.fresh.1 = [.term c] :=
      Function.update_self ..
    have hbelow : Below st.fresh.2.names.length [.nonterm st.fresh.1, .term c] := by
      simp [Below, Binarization.fresh]
    have inv₂ := inv₁.emit hbelow rfl (by rw [hmeaning]; exact .refl _)
    rw [lift_of_lookup_eq_none hlookup]
    refine ⟨_, { inv₂ with lifted := ?_ }, ?_, hmeaning, mem_emit⟩
    · intro d b hmem
      rcases List.mem_cons.1 hmem with heq | hmem
      · cases heq
        exact ⟨hmeaning, mem_emit⟩
      · exact inv₂.lifted d b hmem
    · exact hext₁.trans ⟨List.prefix_rfl, fun _ hp ↦ List.mem_append_left _ hp, fun _ _ ↦ rfl⟩

/-- A lifted right-hand side consists of non-terminals, stands for the right-hand side and derives
it. -/
structure Lifts (g : Grammar) (m : Meaning) (st : Binarization) (rhs lifted : List Symbol) :
    Prop where
  length_eq : lifted.length = rhs.length
  nonterm : ∀ s ∈ lifted, ∃ a, s = .nonterm a
  below : Below st.names.length lifted
  expand : m.expand lifted = rhs
  derives : (st.grammar g).Derives lifted rhs

/-- One more non-terminal in front. -/
theorem Lifts.cons (h : Lifts g m st rhs form) {a : NonTerm} {s : Symbol}
    (ha : a.index < st.names.length) (hmeaning : m a = [s])
    (hderives : (st.grammar g).Derives [.nonterm a] [s]) :
    Lifts g m st (s :: rhs) (.nonterm a :: form) where
  length_eq := congrArg Nat.succ h.length_eq
  nonterm := List.forall_mem_cons.2 ⟨⟨a, rfl⟩, h.nonterm⟩
  below := below_nonterm_cons.2 ⟨ha, h.below⟩
  expand := by rw [Meaning.expand_nonterm_cons, hmeaning, h.expand, List.singleton_append]
  derives := hderives.append h.derives

theorem exists_liftAll (inv : Invariant g m st) (hrhs : ∀ s ∈ rhs, g.Owns s) :
    ∃ m', Invariant g m' (st.liftAll rhs).2 ∧ Extends m st m' (st.liftAll rhs).2 ∧
      Lifts g m' (st.liftAll rhs).2 rhs (st.liftAll rhs).1 := by
  induction rhs generalizing m st with
  | nil => exact ⟨m, inv, .refl, rfl, nofun, nofun, rfl, .refl _⟩
  | cons s rhs ih =>
    have hrest : ∀ s ∈ rhs, g.Owns s := fun s hs ↦ hrhs s (.tail _ hs)
    cases s with
    | nonterm a =>
      obtain ⟨m', inv', hext, hlifts⟩ := ih inv hrest
      have ha : a.index < g.size := hrhs _ (.head _) a rfl
      exact ⟨m', inv', hext, hlifts.cons (Nat.lt_of_lt_of_le ha inv'.names_prefix.length_le)
        (inv'.original a ha) (.refl _)⟩
    | term c =>
      obtain ⟨m₁, inv₁, hext₁, hmeaning, hmem⟩ := exists_lift inv c
      obtain ⟨m', inv', hext, hlifts⟩ := ih inv₁ hrest
      have ha := inv₁.below _ hmem _ (.head _)
      have hmem' := hext.productions _ hmem
      exact ⟨m', inv', hext₁.trans hext, hlifts.cons (inv'.below _ hmem' _ (.head _))
        ((hext.meaning _ ha).trans hmeaning) (.of_mem (p := ⟨_, _⟩) hmem')⟩

/-! ## Folding -/

/-- A right-hand side that can be folded: a terminal, or non-terminals, two at least. -/
def Foldable (rhs : List Symbol) : Prop :=
  (∃ c, rhs = [.term c]) ∨ 2 ≤ rhs.length ∧ ∀ s ∈ rhs, ∃ a, s = .nonterm a

theorem Foldable.isBinary (h : Foldable rhs)
    (hshort : ∀ s s' s'' rest, rhs = s :: s' :: s'' :: rest → False) :
    (Production.mk lhs rhs).isBinary = true := by
  rw [Production.isBinary_iff]
  refine h.imp_right fun ⟨hlen, hnonterm⟩ ↦ ?_
  match rhs with
  | [s, s'] =>
    obtain ⟨b, rfl⟩ := hnonterm s (.head _)
    obtain ⟨c, rfl⟩ := hnonterm s' (.tail _ (.head _))
    exact ⟨b, c, rfl⟩
  | s :: s' :: s'' :: rest => exact (hshort _ _ _ _ rfl).elim

theorem fold_of_long {s s' s'' : Symbol} :
    st.fold lhs (s :: s' :: s'' :: rhs) =
      (st.fresh.2.emit lhs [s, .nonterm st.fresh.1]).fold st.fresh.1 (s' :: s'' :: rhs) := by
  rw [fold]

theorem fold_of_short (hshort : ∀ s s' s'' rest, rhs = s :: s' :: s'' :: rest → False) :
    st.fold lhs rhs = st.emit lhs rhs := by
  rw [fold]
  exact hshort

theorem index_fresh_lt : st.fresh.1.index < st.fresh.2.names.length := by
  simp [Binarization.fresh]

/-- The first production of a fold: its helper stands for what is still to be folded. -/
theorem Invariant.fold_step (inv : Invariant g m st) {b : NonTerm}
    (hbelow : Below st.names.length (.nonterm lhs :: .nonterm b :: rhs))
    (hderives : g.Derives (m lhs) (m.expand (.nonterm b :: rhs))) :
    Invariant g (Function.update m st.fresh.1 (m.expand rhs))
      (st.fresh.2.emit lhs [.nonterm b, .nonterm st.fresh.1]) := by
  have hext := extends_fresh m st (m.expand rhs)
  have hmeaning := Function.update_self st.fresh.1 (m.expand rhs) m
  obtain ⟨hlhs, hb, hrhs⟩ : lhs.index < _ ∧ b.index < _ ∧ Below st.names.length rhs := by
    rwa [below_nonterm_cons, below_nonterm_cons] at hbelow
  refine (inv.fresh (m.expand rhs)).emit ?_ rfl ?_
  · have hpair := hext.below (below_nonterm_cons.2 ⟨hlhs, below_nonterm_cons.2 ⟨hb, below_nil⟩⟩)
    simp only [below_nonterm_cons] at hpair ⊢
    exact ⟨hpair.1, hpair.2.1, index_fresh_lt, below_nil⟩
  · rw [hext.meaning lhs hlhs]
    simpa [hmeaning, hext.meaning b hb] using hderives

/-- The productions of a fold derive what is folded. -/
theorem exists_fold (inv : Invariant g m st) (hbelow : Below st.names.length (.nonterm lhs :: rhs))
    (hfoldable : Foldable rhs) (hderives : g.Derives (m lhs) (m.expand rhs)) :
    ∃ m', Invariant g m' (st.fold lhs rhs) ∧ Extends m st m' (st.fold lhs rhs) ∧
      ((st.fold lhs rhs).grammar g).Derives [.nonterm lhs] rhs := by
  induction st, lhs, rhs using fold.induct generalizing m with
  | case1 st lhs s s' s'' rest helper st₁ hfresh ih =>
    obtain rfl : st.fresh.1 = helper := congrArg Prod.fst hfresh
    obtain rfl : st.fresh.2 = st₁ := congrArg Prod.snd hfresh
    obtain ⟨-, hnonterm⟩ := hfoldable.resolve_left (by simp)
    obtain ⟨b, rfl⟩ := hnonterm s (.head _)
    have hrest : Below st.names.length (s' :: s'' :: rest) :=
      fun a ha ↦ hbelow a (.tail _ (.tail _ ha))
    have hext₁ := extends_fresh m st (m.expand (s' :: s'' :: rest))
    have hfoldable' : Foldable (s' :: s'' :: rest) :=
      .inr ⟨by simp, fun s hs ↦ hnonterm s (.tail _ hs)⟩
    obtain ⟨m', inv', hext', hderives'⟩ := ih (inv.fold_step hbelow hderives)
      (below_nonterm_cons.2 ⟨index_fresh_lt, hext₁.below hrest⟩) hfoldable'
      (by rw [Function.update_self, hext₁.expand hrest]; exact .refl _)
    rw [fold_of_long]
    refine ⟨m', inv', (hext₁.trans extends_emit).trans hext', ?_⟩
    -- the left-hand side derives the first symbol and the helper, and that derives the others
    have hpair := Grammar.Derives.of_mem (g := grammar g _) (hext'.productions _ mem_emit)
    exact hpair.trans (hderives'.append_left [.nonterm b])
  | case2 st lhs rhs hshort =>
    rw [fold_of_short hshort]
    exact ⟨m, inv.emit hbelow (hfoldable.isBinary hshort) hderives, extends_emit,
      .of_mem (p := ⟨_, _⟩) mem_emit⟩

/-! ## Productions that were dealt with -/

/-- What is noted as dealt with is derived. -/
def Noted (g : Grammar) (st : Binarization) : Prop :=
  ∀ x ∈ st.seen, (st.grammar g).Derives [.nonterm x.1] x.2

theorem Noted.of_extends (h : st.Noted g) (hext : Extends m st m' st')
    (hseen : st'.seen = st.seen) : st'.Noted g :=
  fun x hx ↦ hext.derives (h x (hseen ▸ hx))

theorem seen_lift (st : Binarization) (c : Char) : (st.lift c).2.seen = st.seen := by
  cases h : st.lifted.lookup c with
  | some a => rw [lift_of_lookup_eq_some h]
  | none =>
    rw [lift_of_lookup_eq_none h]
    rfl

theorem seen_liftAll (st : Binarization) (rhs : List Symbol) :
    (st.liftAll rhs).2.seen = st.seen := by
  induction rhs generalizing st with
  | nil => rfl
  | cons s rhs ih =>
    cases s with
    | nonterm a => exact ih st
    | term c => exact (ih _).trans (seen_lift st c)

theorem seen_fold (st : Binarization) (lhs : NonTerm) (rhs : List Symbol) :
    (st.fold lhs rhs).seen = st.seen := by
  induction st, lhs, rhs using fold.induct with
  | case1 st lhs s s' s'' rest helper st₁ hfresh ih =>
    obtain rfl : st.fresh.1 = helper := congrArg Prod.fst hfresh
    obtain rfl : st.fresh.2 = st₁ := congrArg Prod.snd hfresh
    rw [fold_of_long, ih]
    rfl
  | case2 st lhs rhs hshort =>
    rw [fold_of_short hshort]
    rfl

/-- A production is folded once, and derived from then on. -/
theorem exists_fold_unless_seen (inv : Invariant g m st) (hnoted : st.Noted g)
    (hbelow : Below st.names.length (.nonterm lhs :: rhs)) (hfoldable : Foldable rhs)
    (hderives : g.Derives (m lhs) (m.expand rhs))
    (hst' : st' = if (lhs, rhs) ∈ st.seen then st
      else { st with seen := (lhs, rhs) :: st.seen }.fold lhs rhs) :
    ∃ m', Invariant g m' st' ∧ st'.Noted g ∧ Extends m st m' st' ∧
      (st'.grammar g).Derives [.nonterm lhs] rhs := by
  subst hst'
  split
  case isTrue hseen => exact ⟨m, inv, hnoted, .refl, hnoted _ hseen⟩
  case isFalse =>
    have inv₁ : Invariant g m { st with seen := (lhs, rhs) :: st.seen } := { inv with }
    obtain ⟨m', inv', hext, hfold⟩ := exists_fold inv₁ hbelow hfoldable hderives
    refine ⟨m', inv', ?_, { hext with }, hfold⟩
    intro x hx
    rw [seen_fold] at hx
    rcases List.mem_cons.1 hx with rfl | hx
    · exact hfold
    · exact hext.derives (hnoted x hx)

/-- A right-hand side that is added is derived. -/
theorem exists_add (hg : g.WellFormed) (inv : Invariant g m st) (hnoted : st.Noted g)
    (hlhs : lhs.index < g.size) (hrhs : rhs ∈ g.inherited lhs) :
    ∃ m', Invariant g m' (st.add lhs rhs) ∧ (st.add lhs rhs).Noted g ∧
      Extends m st m' (st.add lhs rhs) ∧
      ((st.add lhs rhs).grammar g).Derives [.nonterm lhs] rhs := by
  obtain ⟨b, -, hp, hunit⟩ := Grammar.mem_inherited.1 hrhs
  have howned : ∀ s ∈ rhs, g.Owns s := hg.rhs_owned _ hp
  have hlhs' : lhs.index < st.names.length := Nat.lt_of_lt_of_le hlhs inv.names_prefix.length_le
  have hderives := Grammar.derives_of_mem_inherited hrhs
  by_cases hlen : rhs.length = 1
  · -- the only symbol is a terminal
    obtain ⟨s, rfl⟩ := List.length_eq_one_iff.1 hlen
    cases s with
    | nonterm c => exact (hunit c rfl).elim
    | term c =>
      exact exists_fold_unless_seen inv hnoted
        (below_nonterm_cons.2 ⟨hlhs', inv.below_of_owned howned⟩) (.inl ⟨c, rfl⟩)
        (by rwa [inv.original lhs hlhs, inv.expand_of_owned howned]) (by simp [add])
  · obtain ⟨m₁, inv₁, hext₁, hlifts⟩ := exists_liftAll inv howned
    have hpos : 0 < rhs.length := List.length_pos_iff.2 (hg.rhs_ne_nil _ hp)
    obtain ⟨m', inv', hnoted', hext, hfold⟩ := exists_fold_unless_seen inv₁
      (hnoted.of_extends hext₁ (seen_liftAll st rhs))
      (below_nonterm_cons.2 ⟨Nat.lt_of_lt_of_le hlhs' hext₁.names.length_le, hlifts.below⟩)
      (.inr ⟨by rw [hlifts.length_eq]; omega, hlifts.nonterm⟩)
      (by rwa [inv₁.original lhs hlhs, hlifts.expand]) rfl
    rw [add, if_neg hlen]
    exact ⟨m', inv', hnoted', hext₁.trans hext, hfold.trans (hext.derives hlifts.derives)⟩

/-! ## The whole grammar -/

theorem exists_foldl_add (hg : g.WellFormed) (inv : Invariant g m st) (hnoted : st.Noted g)
    (hlhs : lhs.index < g.size) {l : List (List Symbol)} (hl : ∀ r ∈ l, r ∈ g.inherited lhs) :
    ∃ m', Invariant g m' (l.foldl (·.add lhs) st) ∧ (l.foldl (·.add lhs) st).Noted g ∧
      Extends m st m' (l.foldl (·.add lhs) st) ∧
      ∀ r ∈ l, ((l.foldl (·.add lhs) st).grammar g).Derives [.nonterm lhs] r := by
  induction l generalizing m st with
  | nil => exact ⟨m, inv, hnoted, .refl, nofun⟩
  | cons r l ih =>
    obtain ⟨hr, hl⟩ := List.forall_mem_cons.1 hl
    obtain ⟨m₁, inv₁, hnoted₁, hext₁, hderives⟩ := exists_add hg inv hnoted hlhs hr
    obtain ⟨m', inv', hnoted', hext, hall⟩ := ih inv₁ hnoted₁ hl
    exact ⟨m', inv', hnoted', hext₁.trans hext,
      List.forall_mem_cons.2 ⟨hext.derives hderives, hall⟩⟩

theorem exists_foldl_foldl_add (hg : g.WellFormed) (inv : Invariant g m st) (hnoted : st.Noted g)
    {l : List NonTerm} (hl : ∀ a ∈ l, a.index < g.size)
    (hst' : st' = l.foldl (fun st a ↦ (g.inherited a).foldl (·.add a) st) st) :
    ∃ m', Invariant g m' st' ∧ Extends m st m' st' ∧
      ∀ a ∈ l, ∀ r ∈ g.inherited a, (st'.grammar g).Derives [.nonterm a] r := by
  subst hst'
  induction l generalizing m st with
  | nil => exact ⟨m, inv, .refl, nofun⟩
  | cons a l ih =>
    obtain ⟨ha, hl⟩ := List.forall_mem_cons.1 hl
    obtain ⟨m₁, inv₁, hnoted₁, hext₁, hderives⟩ :=
      exists_foldl_add hg inv hnoted ha fun r hr ↦ hr
    obtain ⟨m', inv', hext, hall⟩ := ih inv₁ hnoted₁ hl
    exact ⟨m', inv', hext₁.trans hext,
      List.forall_mem_cons.2 ⟨fun r hr ↦ hext.derives (hderives r hr), hall⟩⟩

/-- Nothing is known at the start that the grammar does not say. -/
theorem invariant_start (hg : g.WellFormed) :
    Invariant g (fun a ↦ [.nonterm a]) ⟨g.names, 0, [], [], []⟩ where
  names_prefix := List.prefix_rfl
  names_nodup := hg.names_nodup
  below := nofun
  isBinary := nofun
  original _ _ := rfl
  derives := nofun
  lifted := nofun

end Binarization

/-- The steps to binary form keep the invariant, and every non-terminal derives what it inherits. -/
theorem Grammar.exists_binarization {g : Grammar} (hg : g.WellFormed) :
    ∃ m, Binarization.Invariant g m g.binarization ∧ ∀ a, a.index < g.size →
      ∀ r ∈ g.inherited a, (g.binarization.grammar g).Derives [.nonterm a] r := by
  obtain ⟨m, inv, -, hderives⟩ := Binarization.exists_foldl_foldl_add hg
    (Binarization.invariant_start hg) nofun (fun a ha ↦ mem_nonterms.1 ha) rfl
  exact ⟨m, inv, fun a ha ↦ hderives a (mem_nonterms.2 ha)⟩

end ContextFree
