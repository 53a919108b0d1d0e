import ContextFree.Proofs.NormalForm.Roles

/-!
# Which names are fresh

The search for a fresh name counts up until the name of a number is not in use.  It always ends,
after one pass more than there are names at most: different numbers have different names, so every
pass but the last one uses up a name of its own.

All searches on the way to a binary form go on from one counter.  So what they have passed by is
either a name of the grammar or was made by an earlier search, and the fresh names are those of the
numbers up to the counter that the grammar leaves free, in ascending order
(`Grammar.fresh_names_exact`).
-/

namespace ContextFree

variable {used : List String} {n k : Nat}

/-! ## The search -/

/-- The search as a loop that starts with a counter `n` and ends with `k`.  Each pass first
increases the counter; it is the last one if the name of the new number is not in use. -/
inductive Searches (used : List String) : Nat → Nat → Prop
  | done {n : Nat} : freshName (n + 1) ∉ used → Searches used n (n + 1)
  | more {n k : Nat} : freshName (n + 1) ∈ used → Searches used (n + 1) k → Searches used n k

/-- The search ends with the first number that is not in use. -/
theorem searches_iff : Searches used n k ↔
    n < k ∧ freshName k ∉ used ∧ ∀ j, n < j → j < k → freshName j ∈ used := by
  constructor
  · intro h
    induction h with
    | done hnew => exact ⟨Nat.lt_succ_self _, hnew, by omega⟩
    | @more n k hused _ ih =>
      obtain ⟨hlt, hnew, hpassed⟩ := ih
      refine ⟨by omega, hnew, fun j hj hjk ↦ ?_⟩
      rcases Nat.eq_or_lt_of_le (Nat.succ_le_of_lt hj) with rfl | hj
      · exact hused
      · exact hpassed j hj hjk
  · rintro ⟨hlt, hnew, hpassed⟩
    obtain ⟨d, rfl⟩ := Nat.exists_eq_add_of_lt hlt
    induction d generalizing n with
    | zero => exact .done hnew
    | succ d ih =>
      have hnext : n + (d + 1) + 1 = n + 1 + d + 1 := by omega
      rw [hnext] at hnew hpassed ⊢
      exact .more (hpassed _ (by omega) (by omega))
        (ih (by omega) hnew fun j hj ↦ hpassed j (by omega))

/-- Numbers that were passed by are in use. -/
theorem freshName_mem_of_lt_freshNumber {j : Nat} (hle : k ≤ j) (hlt : j < freshNumber used k) :
    freshName j ∈ used := by
  induction used, k using freshNumber.induct with
  | case1 used k h ih =>
    rw [freshNumber, dif_pos h] at hlt
    rcases Nat.eq_or_lt_of_le hle with rfl | hle
    · exact h
    · exact List.mem_of_mem_erase (ih hle hlt)
  | case2 used k h =>
    rw [freshNumber_of_notMem h] at hlt
    omega

/-- The search passes by a number only if one of the names is in use for it. -/
theorem freshNumber_le (used : List String) (k : Nat) : freshNumber used k ≤ k + used.length := by
  induction used, k using freshNumber.induct with
  | case1 used k h ih =>
    have hpos := List.length_pos_of_mem h
    rw [List.length_erase_of_mem h] at ih
    rw [freshNumber, dif_pos h]
    omega
  | case2 used k h =>
    rw [freshNumber_of_notMem h]
    omega

/-- The search ends, whatever is in use and wherever it starts. -/
theorem searches_freshNumber (used : List String) (n : Nat) :
    Searches used n (freshNumber used (n + 1)) :=
  searches_iff.2 ⟨le_freshNumber _ _, freshName_freshNumber_notMem _ _,
    fun _ ↦ freshName_mem_of_lt_freshNumber⟩

/-! ## Free numbers -/

/-- The positive numbers up to `n` whose names are not in use, in ascending order. -/
def freeUpTo (used : List String) (n : Nat) : List Nat :=
  (List.range' 1 n).filter (freshName · ∉ used)

theorem mem_freeUpTo : k ∈ freeUpTo used n ↔ 0 < k ∧ k ≤ n ∧ freshName k ∉ used := by
  simp only [freeUpTo, List.mem_filter, List.mem_range'_1, decide_eq_true_eq, ← and_assoc]
  refine and_congr_left' ?_
  omega

theorem pairwise_freeUpTo (used : List String) (n : Nat) :
    (freeUpTo used n).Pairwise (· < ·) :=
  List.Pairwise.filter _ List.pairwise_lt_range'

/-- Numbers that are in use add nothing. -/
theorem freeUpTo_of_searches (h : Searches used n k) :
    freeUpTo used k = freeUpTo used n ++ [k] := by
  obtain ⟨hlt, hnew, hpassed⟩ := searches_iff.1 h
  obtain ⟨d, rfl⟩ := Nat.exists_eq_add_of_lt hlt
  have hbetween : (List.range' (1 + n) d).filter (freshName · ∉ used) = [] := by
    refine List.filter_eq_nil_iff.2 fun j hj ↦ ?_
    rw [List.mem_range'_1] at hj
    simpa using hpassed j (by omega) (by omega)
  have hrange : List.range' 1 (n + d + 1) =
      List.range' 1 n ++ (List.range' (1 + n) d ++ [n + d + 1]) := by
    rw [List.range'_1_concat, ← List.range'_append_1, List.append_assoc, Nat.add_comm 1 (n + d)]
  rw [freeUpTo, hrange, List.filter_append, List.filter_append, hbetween]
  simp [freeUpTo, hnew]

/-! ## The names on the way to a binary form -/

namespace Binarization

variable {st : Binarization}

/-- Behind the names of the grammar stand those of the numbers up to the counter that the grammar
leaves free. -/
def NamedInOrder (used : List String) (st : Binarization) : Prop :=
  st.names = used ++ (freeUpTo used st.counter).map freshName

theorem NamedInOrder.mem_names (h : st.NamedInOrder used) {name : String} :
    name ∈ st.names ↔ name ∈ used ∨ ∃ k ∈ freeUpTo used st.counter, freshName k = name := by
  rw [h, List.mem_append, List.mem_map]

/-- What a search passes by is in use by the grammar, as the names made so far have smaller
numbers. -/
theorem NamedInOrder.searches (h : st.NamedInOrder used) :
    Searches used st.counter st.fresh.2.counter := by
  obtain ⟨hlt, hnew, hpassed⟩ := searches_iff.1 (searches_freshNumber st.names st.counter)
  refine searches_iff.2 ⟨hlt, fun hmem ↦ hnew (h.mem_names.2 (.inl hmem)), fun j hj hjk ↦ ?_⟩
  refine (h.mem_names.1 (hpassed j hj hjk)).resolve_right ?_
  rintro ⟨i, hi, hname⟩
  obtain rfl := freshName_injective hname
  exact Nat.not_le.2 hj (mem_freeUpTo.1 hi).2.1

theorem NamedInOrder.fresh (h : st.NamedInOrder used) : st.fresh.2.NamedInOrder used := by
  rw [NamedInOrder, freeUpTo_of_searches h.searches, List.map_append, ← List.append_assoc, ← h]
  rfl

theorem NamedInOrder.lift (h : st.NamedInOrder used) (c : Char) :
    (st.lift c).2.NamedInOrder used := by
  cases hlookup : st.lifted.lookup c with
  | some a =>
    rw [lift_of_lookup_eq_some hlookup]
    exact h
  | none =>
    rw [lift_of_lookup_eq_none hlookup]
    exact h.fresh

theorem NamedInOrder.liftAll (h : st.NamedInOrder used) (rhs : List Symbol) :
    (st.liftAll rhs).2.NamedInOrder used := by
  induction rhs generalizing st with
  | nil => exact h
  | cons s rhs ih =>
    cases s with
    | nonterm a => exact ih h
    | term c => exact ih (h.lift c)

theorem NamedInOrder.fold (h : st.NamedInOrder used) (lhs : NonTerm) (rhs : List Symbol) :
    (st.fold lhs rhs).NamedInOrder used := by
  induction st, lhs, rhs using fold.induct with
  | case1 st lhs s s' s'' rest helper st₁ hfresh ih =>
    obtain rfl : st.fresh.1 = helper := congrArg Prod.fst hfresh
    obtain rfl : st.fresh.2 = st₁ := congrArg Prod.snd hfresh
    rw [fold_of_long]
    exact ih h.fresh
  | case2 st lhs rhs hshort =>
    rw [fold_of_short hshort]
    exact h

theorem NamedInOrder.fold_unless_seen (h : st.NamedInOrder used) (lhs : NonTerm)
    (rhs : List Symbol) : NamedInOrder used (if (lhs, rhs) ∈ st.seen then st
      else { st with seen := (lhs, rhs) :: st.seen }.fold lhs rhs) := by
  split
  case isTrue => exact h
  case isFalse =>
    have hseen : NamedInOrder used { st with seen := (lhs, rhs) :: st.seen } := h
    exact hseen.fold lhs rhs

theorem NamedInOrder.add (h : st.NamedInOrder used) (lhs : NonTerm) (rhs : List Symbol) :
    (st.add lhs rhs).NamedInOrder used := by
  by_cases hone : rhs.length = 1
  · rw [Binarization.add, if_pos hone]
    exact h.fold_unless_seen lhs rhs
  · rw [Binarization.add, if_neg hone]
    exact (h.liftAll rhs).fold_unless_seen lhs _

end Binarization

/-! ## The names of a binary form -/

namespace Grammar

theorem namedInOrder_binarization (g : Grammar) : g.binarization.NamedInOrder g.names := by
  have hstart : Binarization.NamedInOrder g.names ⟨g.names, 0, [], [], []⟩ := by
    simp [Binarization.NamedInOrder, freeUpTo]
  rw [binarization_eq]
  exact List.foldlRecOn _ _ hstart fun st h p _ ↦ h.add p.lhs p.rhs

/-- Every search for a fresh name ends, whatever the state is, after one pass more than there are
names at most.  The names that a binary form adds are those of the smallest positive numbers whose
names the grammar does not use, in ascending order. -/
theorem fresh_names_exact (g : Grammar) :
    (∀ st : Binarization, Searches st.names st.counter st.fresh.2.counter ∧
        st.fresh.2.counter ≤ st.counter + (st.names.length + 1)) ∧
      ∃ ks : List Nat, g.binarize.names = g.names ++ ks.map freshName ∧ ks.Pairwise (· < ·) ∧
        (∀ k ∈ ks, 0 < k ∧ freshName k ∉ g.names) ∧
        ∀ k ∈ ks, ∀ j, 0 < j → j < k → freshName j ∉ g.names → j ∈ ks := by
  refine ⟨fun st ↦ ⟨searches_freshNumber _ _, ?_⟩, freeUpTo g.names g.binarization.counter,
    namedInOrder_binarization g, pairwise_freeUpTo _ _, fun k hk ↦ ?_, fun k hk j hj hjk hfree ↦ ?_⟩
  · have hle := freshNumber_le st.names (st.counter + 1)
    rw [Nat.add_right_comm] at hle
    exact hle
  · obtain ⟨hpos, -, hfree⟩ := mem_freeUpTo.1 hk
    exact ⟨hpos, hfree⟩
  · obtain ⟨-, hle, -⟩ := mem_freeUpTo.1 hk
    exact mem_freeUpTo.2 ⟨hj, by omega, hfree⟩

/-- Two terminals are lifted and one right-hand side is folded twice, where `X1` and `X3` are in use
and `X02` is the name of no number. -/
theorem fresh_names_exact_gaps :
    let g : Grammar := ⟨["X3", "X02", "X1"],
      [⟨⟨1⟩, [.term 'a', .nonterm ⟨0⟩, .term 'b', .term 'a']⟩, ⟨⟨0⟩, [.term 'b']⟩], ⟨1⟩⟩
    Searches g.names 0 2 ∧ Searches (g.names ++ ["X2"]) 2 4 ∧
      g.binarize.names = g.names ++ ["X2", "X4", "X5", "X6"] := by
  intro g
  obtain ⟨hsearches, -⟩ := fresh_names_exact g
  obtain ⟨hfirst, -⟩ := hsearches ⟨g.names, 0, [], [], []⟩
  obtain ⟨hsecond, -⟩ := hsearches ⟨g.names ++ ["X2"], 2, [], [], []⟩
  have htwo : (Binarization.fresh ⟨g.names, 0, [], [], []⟩).2.counter = 2 := by decide +kernel
  have hfour : (Binarization.fresh ⟨g.names ++ ["X2"], 2, [], [], []⟩).2.counter = 4 := by
    decide +kernel
  rw [htwo] at hfirst
  rw [hfour] at hsecond
  have hinherited : g.inheritedProductions = [⟨⟨0⟩, [.term 'b']⟩,
      ⟨⟨1⟩, [.term 'a', .nonterm ⟨0⟩, .term 'b', .term 'a']⟩] := by cbv
  have hnames : g.binarize.names = g.names ++ ["X2", "X4", "X5", "X6"] := by
    rw [binarize, binarization_eq, hinherited]
    decide +kernel
  exact ⟨hfirst, hsecond, hnames⟩

end Grammar

end ContextFree
