import ContextFree.Proofs.BreadthFirst
import Mathlib.Data.List.Infix
import Mathlib.Order.Lattice.Nat

/-!
# The order of a breadth-first search

A search goes on in rounds: each visits the head of the queue and queues what that leads to, unless
it is known.  So things are visited in the order in which they become known, and that is the order
in which they first occur behind the start among the successors of what is visited
(`breadthFirst_eq_eraseDups`).  Two things that become known in the same round keep their order
among the successors, and those of an earlier round come first (`idxOf_breadthFirst_lt_iff`).

The distances from the start never go down (`pairwise_distance_breadthFirst`).  What is in the queue
at one time is at most one step further away than its head, so what a round adds is as far away as
anything known.
-/

namespace ContextFree

/-! ## Distances -/

section Distance

variable {α : Type} {r : α → α → Prop} {a b c : α} {n : Nat}

/-- A chain of `n` steps leads from one element to another. -/
inductive LeadsIn (r : α → α → Prop) (a : α) : Nat → α → Prop where
  | refl : LeadsIn r a 0 a
  | tail {n : Nat} {b c : α} (h : LeadsIn r a n b) (hstep : r b c) : LeadsIn r a (n + 1) c

/-- The number of steps of a shortest chain, if there is one. -/
noncomputable def distance (r : α → α → Prop) (a b : α) : Nat := sInf {n | LeadsIn r a n b}

theorem distance_eq (h : LeadsIn r a n b) (hmin : ∀ m, LeadsIn r a m b → n ≤ m) :
    distance r a b = n := by
  have hleads : LeadsIn r a (distance r a b) b := Nat.sInf_mem (s := {n | LeadsIn r a n b}) ⟨n, h⟩
  exact Nat.le_antisymm (Nat.sInf_le h) (hmin _ hleads)

end Distance

/-! ## Positions in lists -/

section Positions

variable {α β : Type} [DecidableEq α] [DecidableEq β]

/-- The images that only two elements have come in the order of these. -/
theorem idxOf_filterMap_lt_iff {f : α → Option β} {x y : α} {b c : β}
    (hb : ∀ z, f z = some b ↔ z = x) (hc : ∀ z, f z = some c ↔ z = y) (l : List α) :
    (l.filterMap f).idxOf b < (l.filterMap f).idxOf c ↔ l.idxOf x < l.idxOf y := by
  induction l with
  | nil => simp
  | cons z l ih =>
    have hx : b = c ↔ x = y := by
      rw [← hc x, (hb x).2 rfl, Option.some.injEq]
    by_cases hzx : z = x
    · rw [List.filterMap_cons_some ((hb z).2 hzx), hzx, List.idxOf_cons_self, List.idxOf_cons_self,
        List.idxOf_cons, List.idxOf_cons]
      by_cases hbc : b = c
      · simp [hbc, hx.1 hbc]
      · simp [beq_eq_false_iff_ne.2 hbc, beq_eq_false_iff_ne.2 (hx.not.1 hbc)]
    · rw [List.idxOf_cons_ne _ hzx]
      by_cases hzy : z = y
      · rw [List.filterMap_cons_some ((hc z).2 hzy), hzy, List.idxOf_cons_self,
          List.idxOf_cons_self]
        simp
      · rw [List.idxOf_cons_ne _ hzy, Nat.succ_lt_succ_iff, ← ih]
        cases hz : f z with
        | none => rw [List.filterMap_cons_none hz]
        | some d =>
          have hdb : d ≠ b := fun heq ↦ hzx ((hb z).1 (heq ▸ hz))
          have hdc : d ≠ c := fun heq ↦ hzy ((hc z).1 (heq ▸ hz))
          rw [List.filterMap_cons_some hz, List.idxOf_cons_ne _ hdb, List.idxOf_cons_ne _ hdc,
            Nat.succ_lt_succ_iff]

theorem idxOf_filter_ne_lt_iff {a b c : α} (hb : b ≠ a) (hc : c ≠ a) (l : List α) :
    (l.filter (!· == a)).idxOf b < (l.filter (!· == a)).idxOf c ↔ l.idxOf b < l.idxOf c := by
  rw [← List.filterMap_eq_filter]
  refine idxOf_filterMap_lt_iff (fun z ↦ ?_) (fun z ↦ ?_) l
  · rw [Option.guard_eq_some_iff]
    refine and_iff_left_of_imp ?_
    rintro rfl
    simpa using hb
  · rw [Option.guard_eq_some_iff]
    refine and_iff_left_of_imp ?_
    rintro rfl
    simpa using hc

/-- Erasing repetitions keeps the order of the first occurrences. -/
theorem idxOf_eraseDups_lt_iff (b c : α) (l : List α) :
    l.eraseDups.idxOf b < l.eraseDups.idxOf c ↔ l.idxOf b < l.idxOf c := by
  induction hn : l.length using Nat.strongRecOn generalizing l with
  | ind n ih =>
    cases l with
    | nil => simp
    | cons a l =>
      rw [List.eraseDups_cons]
      by_cases hc : a = c
      · simp [hc]
      · rw [List.idxOf_cons_ne _ hc, List.idxOf_cons_ne _ hc]
        by_cases hb : a = b
        · simp [hb]
        · have hlt : (l.filter (!· == a)).length < n :=
            hn ▸ Nat.lt_succ_of_le (List.length_filter_le _ _)
          rw [List.idxOf_cons_ne _ hb, List.idxOf_cons_ne _ hb, Nat.succ_lt_succ_iff,
            Nat.succ_lt_succ_iff, ih _ hlt _ rfl,
            idxOf_filter_ne_lt_iff (Ne.symm hb) (Ne.symm hc)]

end Positions

namespace Search

variable {α : Type} [DecidableEq α] {next : α → List α} {a : α}

/-! ## Rounds -/

/-- What is queued is what was not known, each at its first occurrence. -/
theorem pushAll_eq (st : Search α) (bs : List α) :
    st.pushAll bs = ⟨(bs.removeAll st.seen).eraseDups.reverse ++ st.seen,
      st.queue ++ (bs.removeAll st.seen).eraseDups⟩ := by
  induction bs generalizing st with
  | nil => simp [pushAll]
  | cons b bs ih =>
    change (st.push b).pushAll bs = _
    rw [ih, push, List.cons_removeAll]
    by_cases hb : b ∈ st.seen
    · simp [hb]
    · have hfilter : bs.removeAll (b :: st.seen) = (bs.removeAll st.seen).filter (!· == b) := by
        rw [List.removeAll_cons, List.removeAll, List.removeAll, List.filter_filter,
          List.filter_filter]
        simp only [Bool.and_comm]
      simp [hb, List.eraseDups_cons, hfilter]

/-- One round of a search: the head of the queue is visited, and what it leads to is queued. -/
inductive Round (next : α → List α) : Search α → Search α → Prop where
  | visit {seen rest : List α} (x : α) :
      Round next ⟨seen, x :: rest⟩ (pushAll ⟨seen, rest⟩ (next x))

/-- What every round keeps, with one more visit, holds when everything is visited. -/
theorem holds_of_visits (e : Enclosure next) {P : List α → Search α → Prop}
    (hround : ∀ visited seen x rest, P visited ⟨seen, x :: rest⟩ →
      P (visited ++ [x]) (pushAll ⟨seen, rest⟩ (next x)))
    {visited : List α} (st : Search α) (h : ∀ b ∈ st.queue, e.Inside b) (hst : P visited st) :
    ∃ seen, P (visited ++ st.visits e h) ⟨seen, []⟩ := by
  induction st, h using visits.induct generalizing visited with
  | case1 st h hq =>
    obtain ⟨seen, queue⟩ := st
    cases hq
    rw [visits_nil, List.append_nil]
    exact ⟨seen, hst⟩
  | case2 st h x rest hq inside ih =>
    obtain ⟨seen, queue⟩ := st
    cases hq
    obtain ⟨h', heq⟩ := visits_cons e h
    obtain ⟨seen', hend⟩ := ih (hround visited seen x rest hst)
    rw [heq]
    exact ⟨seen', by rwa [List.append_assoc] at hend⟩

/-- What is known after the visits of a search from `a`. -/
structure History (next : α → List α) (a : α) (visited : List α) (st : Search α) : Prop where
  /-- Things are visited in the order in which they become known. -/
  seen_eq : st.seen.reverse = visited ++ st.queue
  firsts : st.seen.reverse = (a :: visited.flatMap next).eraseDups

theorem history_start (next : α → List α) (a : α) : History next a [] (start a) where
  seen_eq := rfl
  firsts := by simp [start, List.eraseDups_cons]

theorem History.mem_seen_iff {visited : List α} {st : Search α} (h : History next a visited st)
    {b : α} : b ∈ st.seen ↔ b = a ∨ ∃ x ∈ visited, b ∈ next x := by
  rw [← List.mem_reverse, h.firsts, List.mem_eraseDups, List.mem_cons, List.mem_flatMap]

theorem History.round {visited seen rest : List α} {x : α}
    (h : History next a visited ⟨seen, x :: rest⟩) :
    History next a (visited ++ [x]) (pushAll ⟨seen, rest⟩ (next x)) := by
  have hseen : seen.reverse = visited ++ x :: rest := h.seen_eq
  have hnew : (next x).removeAll seen = (next x).removeAll (a :: visited.flatMap next) := by
    refine List.filter_congr fun b _ ↦ ?_
    have hmem := h.mem_seen_iff (b := b)
    rw [Bool.not_inj_iff, Bool.eq_iff_iff, List.elem_iff, List.elem_iff, hmem, List.mem_cons,
      List.mem_flatMap]
  rw [pushAll_eq]
  constructor
  case seen_eq => simp [hseen]
  case firsts =>
    rw [List.reverse_append, List.reverse_reverse, List.flatMap_append, ← List.cons_append,
      List.eraseDups_append, ← h.firsts, List.flatMap_singleton, hnew]

/-! ## Depths -/

/-- How far from the start things are that a search from `a` knows.  They become known in the order
of their depths, and nothing in the queue is deeper than one step below anything else there. -/
structure Levels (next : α → List α) (a : α) (depth : α → Nat) (visited : List α)
    (st : Search α) : Prop extends History next a visited st where
  depth_start : depth a = 0
  leads : ∀ b ∈ st.seen, LeadsIn (fun x y ↦ y ∈ next x) a (depth b) b
  ascends : st.seen.reverse.Pairwise (depth · ≤ depth ·)
  spread : ∀ x ∈ st.queue, ∀ y ∈ st.queue, depth y ≤ depth x + 1
  near : ∀ x ∈ visited, ∀ y ∈ next x, depth y ≤ depth x + 1

theorem levels_start (next : α → List α) (a : α) : Levels next a (fun _ ↦ 0) [] (start a) where
  toHistory := history_start next a
  depth_start := rfl
  leads _ hb := List.mem_singleton.1 hb ▸ .refl
  ascends := List.pairwise_singleton _ _
  spread _ _ _ _ := Nat.zero_le _
  near := nofun

/-- A round puts what is new one step behind what it visits. -/
theorem Levels.round {depth : α → Nat} {visited seen rest : List α} {x : α}
    (h : Levels next a depth visited ⟨seen, x :: rest⟩) :
    ∃ depth', Levels next a depth' (visited ++ [x]) (pushAll ⟨seen, rest⟩ (next x)) := by
  have hseen : seen.reverse = visited ++ x :: rest := h.seen_eq
  have hascends : (visited ++ x :: rest).Pairwise (depth · ≤ depth ·) := hseen ▸ h.ascends
  obtain ⟨-, htail, hfront⟩ := List.pairwise_append.1 hascends
  have hx : x ∈ seen := List.mem_reverse.1 (by simp [hseen])
  -- what is known is at most one step behind the head, and what stays in the queue not before it
  have hle : ∀ b ∈ seen, depth b ≤ depth x + 1 := by
    intro b hb
    rw [← List.mem_reverse, hseen, List.mem_append] at hb
    rcases hb with hb | hb
    · exact Nat.le_succ_of_le (hfront b hb x (.head _))
    · exact h.spread x (.head _) b hb
  have hge : ∀ b ∈ rest, depth x ≤ depth b := (List.pairwise_cons.1 htail).1
  let depth' : α → Nat := fun b ↦ if b ∈ seen then depth b else depth x + 1
  have hold : ∀ b ∈ seen, depth' b = depth b := fun b hb ↦ if_pos hb
  have hnew : ∀ b ∉ seen, depth' b = depth x + 1 := fun b hb ↦ if_neg hb
  have hle' : ∀ b, depth' b ≤ depth x + 1 := by
    intro b
    by_cases hb : b ∈ seen
    · exact (hold b hb).trans_le (hle b hb)
    · exact (hnew b hb).le
  have hfresh : ∀ b ∈ ((next x).removeAll seen).eraseDups, b ∈ next x ∧ b ∉ seen := by
    intro b hb
    simpa [List.removeAll] using List.mem_eraseDups.1 hb
  have hrest : ∀ b ∈ rest, b ∈ seen := fun b hb ↦ List.mem_reverse.1 (by simp [hseen, hb])
  have hhistory := h.toHistory.round
  rw [pushAll_eq] at hhistory ⊢
  refine ⟨depth', hhistory, ?_, ?_, ?_, ?_, ?_⟩
  case refine_1 =>
    rw [hold a (h.mem_seen_iff.2 (.inl rfl)), h.depth_start]
  case refine_2 =>
    intro b hb
    rcases List.mem_append.1 hb with hb | hb
    · obtain ⟨hnext, hb⟩ := hfresh b (List.mem_reverse.1 hb)
      rw [hnew b hb]
      exact (h.leads x hx).tail hnext
    · rw [hold b hb]
      exact h.leads b hb
  case refine_3 =>
    rw [List.reverse_append, List.reverse_reverse]
    refine List.pairwise_append.2 ⟨?_, ?_, fun b _ c hc ↦ ?_⟩
    · refine h.ascends.imp_of_mem fun {b c} hb hc hbc ↦ ?_
      rwa [hold b (List.mem_reverse.1 hb), hold c (List.mem_reverse.1 hc)]
    · refine List.pairwise_of_forall_mem_list fun b hb c hc ↦ ?_
      rw [hnew b (hfresh b hb).2, hnew c (hfresh c hc).2]
    · rw [hnew c (hfresh c hc).2]
      exact hle' b
  case refine_4 =>
    intro b hb c _
    refine (hle' c).trans (Nat.succ_le_succ ?_)
    rcases List.mem_append.1 hb with hb | hb
    · rw [hold b (hrest b hb)]
      exact hge b hb
    · rw [hnew b (hfresh b hb).2]
      exact Nat.le_succ _
  case refine_5 =>
    intro b hb c hc
    rcases List.mem_append.1 hb with hb | hb
    · have hbseen : b ∈ seen := List.mem_reverse.1 (by simp [hseen, hb])
      rw [hold b hbseen, hold c (h.mem_seen_iff.2 (.inr ⟨b, hb, hc⟩))]
      exact h.near b hb c hc
    · rw [List.mem_singleton.1 hb, hold x hx]
      exact hle' c

/-- When everything is visited, the depths are the distances. -/
theorem Levels.distance_eq {depth : α → Nat} {visited seen : List α}
    (h : Levels next a depth visited ⟨seen, []⟩) {b : α} (hb : b ∈ seen) :
    distance (fun x y ↦ y ∈ next x) a b = depth b := by
  have hvisited : ∀ b ∈ seen, b ∈ visited := fun b hb ↦ by
    rwa [← List.mem_reverse, h.seen_eq, List.append_nil] at hb
  refine ContextFree.distance_eq (h.leads b hb) fun n hn ↦ ?_
  suffices hboth : b ∈ seen ∧ depth b ≤ n from hboth.2
  clear hb
  induction hn with
  | refl => exact ⟨h.mem_seen_iff.2 (.inl rfl), h.depth_start.le⟩
  | @tail n b c _ hstep ih =>
    obtain ⟨hb, hle⟩ := ih
    have hb' := hvisited b hb
    exact ⟨h.mem_seen_iff.2 (.inr ⟨b, hb', hstep⟩),
      (h.near b hb' c hstep).trans (Nat.succ_le_succ hle)⟩

end Search

/-! ## The whole search -/

section BreadthFirst

variable {α : Type} [DecidableEq α] {next : α → List α} {a b c : α}

open Search

/-- The rounds come to an end, and what is known then is what is visited, in the same order. -/
theorem exists_rounds_breadthFirst (e : Enclosure next) (h : e.Inside a) :
    ∃ seen, Relation.ReflTransGen (Round next) (start a) ⟨seen, []⟩ ∧
      seen.reverse = breadthFirst e a h := by
  obtain ⟨seen, hrounds, hhistory⟩ := holds_of_visits e
    (P := fun visited st ↦ Relation.ReflTransGen (Round next) (start a) st ∧
      History next a visited st)
    (fun _ _ x _ hboth ↦ ⟨hboth.1.tail (.visit x), hboth.2.round⟩) (start a)
    (by simpa [start] using h) ⟨.refl, history_start next a⟩
  exact ⟨seen, hrounds, by simpa [breadthFirst] using hhistory.seen_eq⟩

/-- A search visits the start and the successors of what it visits, each at its first
occurrence. -/
theorem breadthFirst_eq_eraseDups (e : Enclosure next) (h : e.Inside a) :
    breadthFirst e a h = (a :: (breadthFirst e a h).flatMap next).eraseDups := by
  obtain ⟨seen, hhistory⟩ := holds_of_visits e (fun _ _ _ _ ↦ History.round) (start a)
    (by simpa [start] using h) (history_start next a)
  have hseen := hhistory.seen_eq
  rw [List.append_nil] at hseen
  exact hseen.symm.trans hhistory.firsts

/-- A search never comes back to something that is nearer to the start. -/
theorem pairwise_distance_breadthFirst (e : Enclosure next) (h : e.Inside a) :
    (breadthFirst e a h).Pairwise
      (distance (fun x y ↦ y ∈ next x) a · ≤ distance (fun x y ↦ y ∈ next x) a ·) := by
  obtain ⟨seen, depth, hlevels⟩ := holds_of_visits e
    (P := fun visited st ↦ ∃ depth, Levels next a depth visited st)
    (fun _ _ _ _ ⟨_, hlevels⟩ ↦ hlevels.round) (start a) (by simpa [start] using h)
    ⟨_, levels_start next a⟩
  have hseen : seen.reverse = breadthFirst e a h := by simpa [breadthFirst] using hlevels.seen_eq
  rw [← hseen]
  refine hlevels.ascends.imp_of_mem fun {b c} hb hc hbc ↦ ?_
  rwa [hlevels.distance_eq (List.mem_reverse.1 hb), hlevels.distance_eq (List.mem_reverse.1 hc)]

/-- Where something stands among the successors: behind those of what comes before the first that
leads to it. -/
theorem idxOf_cons_flatMap {l : List α} {x : α} (hb : b ≠ a)
    (hx : l.find? (b ∈ next ·) = some x) :
    x ∈ l ∧ b ∈ next x ∧ (a :: l.flatMap next).idxOf b =
      ((l.take (l.idxOf x)).flatMap next).length + (next x).idxOf b + 1 := by
  obtain ⟨hmem, front, back, rfl, hfront⟩ := List.find?_eq_some_iff_append.1 hx
  have hmem : b ∈ next x := by simpa using hmem
  have hnone : b ∉ front.flatMap next := by simpa [List.mem_flatMap] using hfront
  have hx : x ∉ front := fun hx ↦ hnone (List.mem_flatMap.2 ⟨x, hx, hmem⟩)
  refine ⟨by simp, hmem, ?_⟩
  rw [List.idxOf_cons_ne _ (Ne.symm hb), List.flatMap_append, List.idxOf_append, if_neg hnone,
    List.flatMap_cons, List.idxOf_append, if_pos hmem, List.idxOf_append, if_neg hx,
    List.idxOf_cons_self, Nat.zero_add, List.take_left, Nat.add_comm (List.idxOf b _)]

/-- The successors of an element stand before those of a later one. -/
theorem length_flatMap_take_add_le (next : α → List α) {l : List α} {x y : α} (hx : x ∈ l)
    (hlt : l.idxOf x < l.idxOf y) :
    ((l.take (l.idxOf x)).flatMap next).length + (next x).length ≤
      ((l.take (l.idxOf y)).flatMap next).length := by
  have hpos : l.idxOf x < l.length := List.idxOf_lt_length_iff.2 hx
  have hprefix := ((List.take_prefix_take_left (l := l) hlt).flatMap next).length_le
  rwa [List.take_succ_eq_append_getElem hpos, List.getElem_idxOf, List.flatMap_append,
    List.flatMap_singleton, List.length_append] at hprefix

/-- What becomes known in an earlier round is visited earlier, and what becomes known in the same
round is visited in the order of the successors. -/
theorem idxOf_breadthFirst_lt_iff (e : Enclosure next) (h : e.Inside a) (hb : b ≠ a) (hc : c ≠ a)
    {x y : α} (hx : (breadthFirst e a h).find? (b ∈ next ·) = some x)
    (hy : (breadthFirst e a h).find? (c ∈ next ·) = some y) :
    (breadthFirst e a h).idxOf b < (breadthFirst e a h).idxOf c ↔
      (breadthFirst e a h).idxOf x < (breadthFirst e a h).idxOf y ∨
        x = y ∧ (next x).idxOf b < (next x).idxOf c := by
  have hfirsts := idxOf_eraseDups_lt_iff b c (a :: (breadthFirst e a h).flatMap next)
  rw [← breadthFirst_eq_eraseDups] at hfirsts
  obtain ⟨hxmem, hbx, hbpos⟩ := idxOf_cons_flatMap hb hx
  obtain ⟨hymem, hcy, hcpos⟩ := idxOf_cons_flatMap hc hy
  rw [hfirsts, hbpos, hcpos]
  have hblt := List.idxOf_lt_length_iff.2 hbx
  have hclt := List.idxOf_lt_length_iff.2 hcy
  rcases Nat.lt_trichotomy ((breadthFirst e a h).idxOf x) ((breadthFirst e a h).idxOf y) with
    hlt | heq | hlt
  · have hle := length_flatMap_take_add_le next hxmem hlt
    exact iff_of_true (by omega) (.inl hlt)
  · obtain rfl := (List.idxOf_inj hxmem).1 heq
    simp
  · have hle := length_flatMap_take_add_le next hymem hlt
    refine iff_of_false (by omega) ?_
    rintro (hlt' | ⟨rfl, -⟩)
    · exact Nat.lt_asymm hlt hlt'
    · exact Nat.lt_irrefl _ hlt

end BreadthFirst

end ContextFree
