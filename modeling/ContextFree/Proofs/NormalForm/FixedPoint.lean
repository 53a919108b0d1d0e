import ContextFree.Proofs.Grammar.Alternatives
import ContextFree.Proofs.Grammar.Building
import ContextFree.Proofs.NormalForm.Language
import ContextFree.Proofs.NormalForm.Roles

/-!
# Grammars that are their own binary form

Of a grammar in binary form nothing is lifted or folded, so its binary form has the same
non-terminals, and the same productions, sorted by their left-hand sides, without those that come
again.  Conversely a binary form is binary, sorted, and has no production twice, although the
productions of helpers are added without asking whether they are there: each is told from the others
by what it was made of.  So these three properties say which grammars are their own binary form, and
a second pass changes nothing (`binarize_fixed_points`).
-/

namespace ContextFree

/-! ## Sorting by a key -/

section Sorting

variable {α : Type _} {key : α → Nat} {l : List α}

/-- In a sorted list, what lies below a bound comes first. -/
theorem filter_lt_append_filter_eq {n : Nat} (hl : l.Pairwise (key · ≤ key ·))
    (hle : ∀ x ∈ l, key x ≤ n) : l.filter (key · < n) ++ l.filter (key · = n) = l := by
  induction l with
  | nil => rfl
  | cons x l ih =>
    obtain ⟨hx, hl⟩ := List.pairwise_cons.1 hl
    obtain ⟨hxle, hle⟩ := List.forall_mem_cons.1 hle
    rcases Nat.lt_or_eq_of_le hxle with hlt | heq
    · rw [List.filter_cons_of_pos (by simpa using hlt),
        List.filter_cons_of_neg (by simpa using Nat.ne_of_lt hlt), List.cons_append, ih hl hle]
    · have hall : ∀ y ∈ l, key y = n := fun y hy ↦ Nat.le_antisymm (hle y hy) (heq ▸ hx y hy)
      have hnone : l.filter (key · < n) = [] := by
        rw [List.filter_eq_nil_iff]
        intro y hy
        simp [hall y hy]
      rw [List.filter_cons_of_neg (by simp [heq]), hnone, List.nil_append,
        List.filter_cons_of_pos (by simpa using heq), List.filter_eq_self.2 (by simpa using hall)]

/-- A sorted list is the list of its groups. -/
theorem flatMap_filter_of_pairwise {n : Nat} (hl : l.Pairwise (key · ≤ key ·))
    (hlt : ∀ x ∈ l, key x < n) : (List.range n).flatMap (fun k ↦ l.filter (key · = k)) = l := by
  induction n generalizing l with
  | zero =>
    have hnil : l = [] := List.eq_nil_iff_forall_not_mem.2 fun x hx ↦ Nat.not_lt_zero _ (hlt x hx)
    rw [hnil]
    rfl
  | succ n ih =>
    have hgroups : ∀ k ∈ List.range n,
        l.filter (key · = k) = (l.filter (key · < n)).filter (key · = k) := by
      intro k hk
      rw [List.filter_filter]
      refine List.filter_congr fun x _ ↦ ?_
      have hkn := List.mem_range.1 hk
      by_cases heq : key x = k
      · simp [heq, hkn]
      · simp [heq]
    rw [List.range_succ, List.flatMap_append, List.flatMap_congr hgroups,
      ih (hl.filter _) (fun x hx ↦ by simpa using List.of_mem_filter hx), List.flatMap_singleton]
    exact filter_lt_append_filter_eq hl fun x hx ↦ Nat.le_of_lt_succ (hlt x hx)

theorem pairwise_mergeSort_key (key : α → Nat) (l : List α) :
    (l.mergeSort (key · ≤ key ·)).Pairwise (key · ≤ key ·) := by
  have hsorted : (l.mergeSort (key · ≤ key ·)).Pairwise fun a b ↦
      decide (key a ≤ key b) = true := by
    apply List.pairwise_mergeSort
    · intro a b c hab hbc
      simp only [decide_eq_true_eq] at hab hbc ⊢
      exact Nat.le_trans hab hbc
    · intro a b
      simpa using Nat.le_total (key a) (key b)
  exact hsorted.imp of_decide_eq_true

theorem mergeSort_key_eq_self (h : l.Pairwise (key · ≤ key ·)) :
    l.mergeSort (key · ≤ key ·) = l :=
  List.mergeSort_of_pairwise (h.imp decide_eq_true)

/-- Sorting keeps the order within each group. -/
theorem filter_mergeSort_key (key : α → Nat) (l : List α) (k : Nat) :
    (l.mergeSort (key · ≤ key ·)).filter (key · = k) = l.filter (key · = k) := by
  have hgroup : (l.filter (key · = k)).Pairwise (fun a b ↦ decide (key a ≤ key b) = true) := by
    refine List.pairwise_of_forall_mem_list fun x hx y hy ↦ ?_
    have hxk : key x = k := by simpa using List.of_mem_filter hx
    have hyk : key y = k := by simpa using List.of_mem_filter hy
    simp [hxk, hyk]
  have hsub : (l.filter (key · = k)).Sublist (l.mergeSort (key · ≤ key ·)) := by
    refine List.sublist_mergeSort (fun a b c hab hbc ↦ ?_) (fun a b ↦ ?_) hgroup
      List.filter_sublist
    · simp only [decide_eq_true_eq] at hab hbc ⊢
      exact Nat.le_trans hab hbc
    · simpa using Nat.le_total (key a) (key b)
  have hsub' := hsub.filter (key · = k)
  simp only [List.filter_filter, Bool.and_self] at hsub'
  exact (hsub'.eq_of_length ((List.mergeSort_perm l _).filter _).length_eq.symm).symm

/-- Sorting by a key puts the groups one after the other. -/
theorem mergeSort_key_eq_flatMap_filter (key : α → Nat) {n : Nat} (hlt : ∀ x ∈ l, key x < n) :
    l.mergeSort (key · ≤ key ·) = (List.range n).flatMap fun k ↦ l.filter (key · = k) :=
  calc l.mergeSort (key · ≤ key ·)
    _ = (List.range n).flatMap fun k ↦ (l.mergeSort (key · ≤ key ·)).filter (key · = k) :=
      (flatMap_filter_of_pairwise (pairwise_mergeSort_key key l)
        fun x hx ↦ hlt x (List.mem_mergeSort.1 hx)).symm
    _ = (List.range n).flatMap fun k ↦ l.filter (key · = k) := by
      simp only [filter_mergeSort_key]

end Sorting

theorem Production.unit?_eq_none_of_isBinary {p : Production} (h : p.isBinary = true) :
    p.unit? = none := by
  rw [Option.eq_none_iff_forall_ne_some]
  intro b hb
  rw [unit?_eq_some_iff] at hb
  rcases isBinary_iff.1 h with ⟨c, hrhs⟩ | ⟨b', c, hrhs⟩
  all_goals
    rw [hb] at hrhs
    cases hrhs

/-! ## Nothing is made twice -/

namespace Grammar

open Role

variable {g : Grammar}

theorem nodup_rulesOf (p : Production) : (rulesOf p).Nodup := by
  refine List.Nodup.of_map Prod.fst ?_
  rw [map_fst_rulesOf, List.nodup_cons]
  refine ⟨fun hmem ↦ ?_, nodup_helpers p _⟩
  obtain ⟨_, -, -, heq⟩ := mem_helpers.1 hmem
  cases heq

/-- A production of a binary form tells which inherited production it was made for. -/
theorem eq_of_mem_rulesOf_of_mem_rulesOf {p q : Production} {x : Spelled Role}
    (hp : x ∈ rulesOf p) (hq : x ∈ rulesOf q) : p = q := by
  obtain ⟨a, form⟩ := x
  have hlhs : ∀ {p : Production}, (a, form) ∈ rulesOf p → a ∈ .original p.lhs :: helpersOf p :=
    fun {p} h ↦ map_fst_rulesOf p ▸ List.mem_map_of_mem (f := Prod.fst) h
  have hap := List.mem_cons.1 (hlhs hp)
  have haq := List.mem_cons.1 (hlhs hq)
  simp only [helpersOf, mem_helpers] at hap haq
  rcases hap with rfl | ⟨n, -, -, rfl⟩
  · obtain ⟨-, hformp⟩ := eq_of_mem_rulesOf hp
    obtain ⟨hlhsq, hformq⟩ := eq_of_mem_rulesOf hq
    rcases hformp with ⟨s, n, rfl⟩ | rfl <;> rcases hformq with ⟨s', n', heq⟩ | heq
    · simp only [List.cons.injEq, Sum.inr.injEq, rest.injEq, and_true] at heq
      exact heq.2.1
    · exact absurd (heq ▸ by simp) (rest_notMem_liftedForm p n q.rhs)
    · exact absurd (heq ▸ by simp) (rest_notMem_liftedForm q n' p.rhs)
    · obtain ⟨lhs, rhs⟩ := p
      obtain rfl : lhs = q.lhs := hlhsq
      obtain rfl : rhs = q.rhs := liftedForm_injective heq
      rfl
  · rcases haq with heq | ⟨n', -, -, heq⟩
    · cases heq
    · exact (rest.inj heq).1

/-- No production of a binary form is there twice. -/
theorem nodup_productions_binarize (hg : g.WellFormed) : g.binarize.productions.Nodup := by
  obtain ⟨ν, lifted, dealt, h⟩ := exists_hasRoles hg
  refine List.Nodup.of_map (·.spell ν) ?_
  rw [h.productions.nodup_iff]
  refine List.nodup_append'.2 ⟨h.lifted_nodup.map fun c d heq ↦ ?_, ?_, ?_⟩
  · exact Role.lifted.inj (Prod.mk.inj heq).1
  · refine List.nodup_flatMap.2 ⟨fun p _ ↦ nodup_rulesOf p, h.dealt_nodup.imp fun hne x hp hq ↦ ?_⟩
    exact hne (eq_of_mem_rulesOf_of_mem_rulesOf hp hq)
  · intro x hx hx'
    obtain ⟨c, -, rfl⟩ := List.mem_map.1 hx
    obtain ⟨p, -, hp⟩ := List.mem_flatMap.1 hx'
    have hlhs := List.mem_map_of_mem (f := Prod.fst) hp
    rw [map_fst_rulesOf, List.mem_cons, helpersOf, mem_helpers] at hlhs
    rcases hlhs with heq | ⟨_, -, -, heq⟩ <;> cases heq

/-! ## Grammars in binary form -/

section Binary

variable (hbinary : g.isBinary = true)

include hbinary

/-- A grammar in binary form has no unit productions. -/
theorem unitClosure_of_isBinary (a : NonTerm) : g.unitClosure a = [a] := by
  refine unitClosure_eq_singleton (List.eq_nil_iff_forall_not_mem.2 fun b hb ↦ ?_)
  have hp := List.all_eq_true.1 hbinary _ (mem_unitTargets.1 hb)
  cases hp

theorem isBinary_production {a : NonTerm} {i : ProdId} (hi : i ∈ g.alternatives a) :
    (g.production i).isBinary = true :=
  List.all_eq_true.1 hbinary _ (production_of_mem_alternatives hi).2.1

/-- A non-terminal inherits its own right-hand sides only. -/
theorem map_inherited_of_isBinary (a : NonTerm) :
    (g.inherited a).map (Production.mk a) = g.productions.filter (·.lhs = a) := by
  rw [← map_production_alternatives, inherited, unitClosure_of_isBinary hbinary,
    List.flatMap_singleton, List.map_filterMap, ← List.filterMap_eq_map]
  refine List.filterMap_congr fun i hi ↦ ?_
  obtain ⟨-, -, hlhs⟩ := production_of_mem_alternatives hi
  have hunit := Production.unit?_eq_none_of_isBinary (isBinary_production hbinary hi)
  rw [hunit, Option.isSome_none, if_neg Bool.false_ne_true, Option.map_some, ← hlhs]
  rfl

/-- The productions are added group by group. -/
theorem inheritedProductions_of_isBinary (hg : g.WellFormed) :
    g.inheritedProductions = g.productions.mergeSort (·.lhs.index ≤ ·.lhs.index) := by
  have hgroup : ∀ k, g.productions.filter (·.lhs = ⟨k⟩) = g.productions.filter (·.lhs.index = k) :=
    fun k ↦ List.filter_congr fun p _ ↦ by simp [NonTerm.ext_iff]
  rw [mergeSort_key_eq_flatMap_filter (fun p : Production ↦ p.lhs.index) hg.lhs_lt,
    inheritedProductions, nonterms, List.flatMap_map]
  apply List.flatMap_congr
  intro k _
  rw [map_inherited_of_isBinary hbinary, hgroup]

end Binary

end Grammar

/-! ## Adding productions in binary form -/

namespace Binarization

variable {names : List String} {ps : List Production} {st : Binarization}

/-- In a production in binary form nothing is lifted, and nothing is folded. -/
theorem add_of_isBinary (st : Binarization) {p : Production} (h : p.isBinary = true) :
    st.add p.lhs p.rhs = if (p.lhs, p.rhs) ∈ st.seen then st
      else { st with seen := (p.lhs, p.rhs) :: st.seen }.emit p.lhs p.rhs := by
  rcases Production.isBinary_iff.1 h with ⟨c, hrhs⟩ | ⟨b, c, hrhs⟩
  · simp [add, hrhs, fold]
  · simp [add, hrhs, liftAll, fold]

/-- Given productions were added as they are, each once, and no name was. -/
structure Collects (names : List String) (ps : List Production) (st : Binarization) : Prop where
  names_eq : st.names = names
  productions_eq : st.productions = ps.eraseDups
  mem_seen_iff : ∀ p : Production, (p.lhs, p.rhs) ∈ st.seen ↔ p ∈ ps

theorem Collects.add (h : Collects names ps st) {p : Production} (hp : p.isBinary = true) :
    Collects names (ps ++ [p]) (st.add p.lhs p.rhs) := by
  rw [add_of_isBinary st hp]
  split
  case isTrue hmem =>
    have hold : p ∈ ps := (h.mem_seen_iff p).1 hmem
    refine ⟨h.names_eq, ?_, fun q ↦ (h.mem_seen_iff q).trans ?_⟩
    · rw [eraseDups_append_of_subset (by simpa using hold), h.productions_eq]
    · rw [List.mem_append, List.mem_singleton]
      exact (or_iff_left_of_imp fun heq ↦ heq ▸ hold).symm
  case isFalse hmem =>
    have hnew : p ∉ ps := fun hold ↦ hmem ((h.mem_seen_iff p).2 hold)
    refine ⟨h.names_eq, ?_, fun q ↦ ?_⟩
    · change st.productions ++ [p] = _
      rw [List.eraseDups_append, h.productions_eq]
      simp [List.removeAll, hnew, List.eraseDups_cons]
    · change (q.lhs, q.rhs) ∈ (p.lhs, p.rhs) :: st.seen ↔ _
      rw [List.mem_cons, h.mem_seen_iff, List.mem_append, List.mem_singleton, or_comm]
      obtain ⟨lhs, rhs⟩ := p
      obtain ⟨lhs', rhs'⟩ := q
      rw [Prod.mk.injEq, Production.mk.injEq]

/-- Of productions in binary form each is added once. -/
theorem collects_foldl_add (names : List String) (hps : ∀ p ∈ ps, p.isBinary = true) :
    Collects names ps
      (ps.foldl (fun (st : Binarization) p ↦ st.add p.lhs p.rhs) ⟨names, 0, [], [], []⟩) := by
  induction ps using List.reverseRecOn with
  | nil => exact ⟨rfl, rfl, fun p ↦ by simp⟩
  | append_singleton ps p ih =>
    obtain ⟨hps, hp⟩ := List.forall_mem_append.1 hps
    rw [List.foldl_append]
    exact (ih hps).add (hp p (.head _))

end Binarization

namespace Grammar

variable {g : Grammar}

/-- The binary form of a grammar in binary form. -/
theorem binarize_of_isBinary (hg : g.WellFormed) (hbinary : g.isBinary = true) :
    g.binarize = { g with
      productions := (g.productions.mergeSort (·.lhs.index ≤ ·.lhs.index)).eraseDups } := by
  have hsorted := inheritedProductions_of_isBinary hbinary hg
  have hall : ∀ p ∈ g.inheritedProductions, p.isBinary = true := by
    intro p hp
    rw [hsorted, List.mem_mergeSort] at hp
    exact List.all_eq_true.1 hbinary p hp
  have h := Binarization.collects_foldl_add g.names hall
  rw [← binarization_eq, hsorted] at h
  rw [binarize, h.names_eq, h.productions_eq, mergeSort_key_eq_self]
  exact (pairwise_mergeSort_key _ _).sublist (eraseDups_sublist _)

/-- Which grammars are their own binary form: the binary ones whose productions are sorted by their
left-hand sides and are all different.  Every binary form is such a grammar.  A grammar that is
binary has only its productions sorted, where those of one left-hand side keep their order, and rid
of those that were there before. -/
theorem binarize_fixed_points (hg : g.WellFormed) :
    (g.binarize = g ↔ g.isBinary = true ∧ g.productions.Nodup ∧
      g.productions.Pairwise (·.lhs.index ≤ ·.lhs.index)) ∧
    g.binarize.binarize = g.binarize ∧
    (g.isBinary = true → g.binarize = { g with
      productions := (g.productions.mergeSort (·.lhs.index ≤ ·.lhs.index)).eraseDups }) := by
  have hfixed : ∀ {g : Grammar}, g.WellFormed → g.isBinary = true → g.productions.Nodup →
      g.productions.Pairwise (·.lhs.index ≤ ·.lhs.index) → g.binarize = g := by
    intro g hg hbinary hnodup hsorted
    rw [binarize_of_isBinary hg hbinary, mergeSort_key_eq_self hsorted, eraseDups_eq_self hnodup]
  have hsorted : g.binarize.productions.Pairwise (·.lhs.index ≤ ·.lhs.index) :=
    pairwise_mergeSort_key _ _
  refine ⟨⟨fun heq ↦ ?_, fun ⟨hbinary, hnodup, hsorted⟩ ↦ hfixed hg hbinary hnodup hsorted⟩, ?_,
    binarize_of_isBinary hg⟩
  · rw [← heq]
    exact ⟨isBinary_binarize hg, nodup_productions_binarize hg, hsorted⟩
  · exact hfixed (wellFormed_binarize hg) (isBinary_binarize hg) (nodup_productions_binarize hg)
      hsorted

/-- In `T → a | a`, `S → T T | T T` the productions come in the wrong order, and each one twice. -/
theorem binarize_fixed_points_unsorted :
    let g : Grammar := ⟨["S", "T"], [⟨⟨1⟩, [.term 'a']⟩, ⟨⟨1⟩, [.term 'a']⟩,
      ⟨⟨0⟩, [.nonterm ⟨1⟩, .nonterm ⟨1⟩]⟩, ⟨⟨0⟩, [.nonterm ⟨1⟩, .nonterm ⟨1⟩]⟩], ⟨0⟩⟩
    g.WellFormed ∧ g.binarize ≠ g ∧ g.binarize.binarize = g.binarize ∧
      g.binarize = { g with
        productions := [⟨⟨0⟩, [.nonterm ⟨1⟩, .nonterm ⟨1⟩]⟩, ⟨⟨1⟩, [.term 'a']⟩] } := by
  intro g
  have hg : g.WellFormed := by decide
  obtain ⟨hfixed, hidempotent, hbinary⟩ := binarize_fixed_points hg
  refine ⟨hg, fun heq ↦ ?_, hidempotent, (hbinary rfl).trans ?_⟩
  · exact absurd (hfixed.1 heq).2.1 (by decide)
  · rw [mergeSort_key_eq_flatMap_filter (fun p : Production ↦ p.lhs.index) hg.lhs_lt]
    rfl

end Grammar

end ContextFree
