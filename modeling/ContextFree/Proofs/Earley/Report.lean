import ContextFree.Proofs.Earley.Membership
import ContextFree.Proofs.Earley.Moment

/-!
# The events give the chart

Each way of finding an item has an event of its own, and an event is reported just when its item
goes to the end of a set.  So the sets can be read off the events: what is reported for a position
is the set of that position, in order.

The order between the events is that of the moments.  An event has a *stage*, the number of
positions that are started by then, and stages never go down.  At the position that is walked over,
items are predicted and completed; scanning reaches one position ahead.  Hence what there is at a
position when its walk begins is what was scanned for it, and nothing is scanned for it later.
-/

namespace ContextFree

/-! ## What events tell -/

namespace Event

open Earley

/-- The item that an event reports for the set of a position. -/
def itemAt? (k : Nat) : Event → Option Item
  | .seeded item => if k = 0 then some item else none
  | .predicted i item | .scanned i item | .completed i item => if i = k then some item else none
  | .cellFilled .. | .positionStarted .. | .finished _ => none

/-- The event reports an item for the set of a position. -/
def isAt (k : Nat) (e : Event) : Bool := (e.itemAt? k).isSome

/-- The event reports that an item was moved over a character into the set of a position. -/
def isScanAt (k : Nat) : Event → Bool
  | .scanned i _ => i = k
  | _ => false

/-- The position that an event reports to be started. -/
def started? : Event → Option Nat
  | .positionStarted i _ => some i
  | _ => none

end Event

namespace Earley

/-- The symbol before the dot, if there is one. -/
def Item.previous? (g : Grammar) (item : Item) : Option Symbol :=
  match item.dot with
  | 0 => none
  | dot + 1 => (g.production item.production).rhs[dot]?

/-- What an event of a run says of its item: one that begins has read nothing, one that was scanned
has just read the character before the position, and one that was completed a non-terminal.  Cells
and verdicts are not reported during a run. -/
def Explains (g : Grammar) (w : List Char) : Event → Prop
  | .seeded item | .predicted _ item => item.dot = 0
  | .scanned k item => ∃ i c, k = i + 1 ∧ w[i]? = some c ∧ item.previous? g = some (.term c)
  | .completed _ item => ∃ a, item.previous? g = some (.nonterm a)
  | .positionStarted .. => True
  | .cellFilled .. | .finished _ => False

open Run

variable {g : Grammar} {w : List Char} {limit : Nat}

section Infers

variable {In : Nat → Item → Prop} {e : Event} {i : Nat} {item : Item}

theorem Infers.itemAt?_eq (h : Infers g w In e i item) (k : Nat) :
    e.itemAt? k = if i = k then some item else none := by
  cases h with
  | seeded => simp only [Event.itemAt?, @eq_comm _ k]
  | predicted | scanned | completed => rfl

theorem Infers.started?_eq (h : Infers g w In e i item) : e.started? = none := by
  cases h <;> rfl

theorem Infers.explains (h : Infers g w In e i item) : Explains g w e := by
  cases h with
  | seeded => rfl
  | predicted => rfl
  | scanned _ hnext hc => exact ⟨_, _, rfl, hc, hnext⟩
  | completed _ _ _ hawaited => exact ⟨_, hawaited⟩

end Infers

/-! ## The sets in the events -/

/-- The events of a run, the latest first, tell what is in its sets. -/
structure Run.Accounted (g : Grammar) (w : List Char) (run : Run) : Prop where
  items_eq : ∀ k, (run.set k).items.toList = (run.events.filterMap (·.itemAt? k)).reverse
  explains : ∀ e ∈ run.events, Explains g w e
  count_eq : ∀ i n after before, run.events = after ++ .positionStarted i n :: before →
    n = (before.filterMap (·.itemAt? i)).length

namespace Run

theorem accounted_empty : Accounted g w (empty w.length) where
  items_eq k := by rw [items_set_empty]; rfl
  explains := nofun
  count_eq i n after before h := by simp [empty] at h

/-- An addition to a set is an addition to the events. -/
theorem Accounted.items_add {run : Run} (h : run.Accounted g w) {i : Nat} (hi : i < run.sets.size)
    {event : Event} {item : Item}
    (hevent : ∀ k, event.itemAt? k = if i = k then some item else none) (k : Nat) :
    ((run.add g i event item).set k).items.toList =
      ((run.add g i event item).events.filterMap (·.itemAt? k)).reverse := by
  rw [set_add, add]
  by_cases hk : k = i
  · subst hk
    rw [if_pos ⟨rfl, hi⟩, ItemSet.items_insert, Array.toList_push, h.items_eq,
      List.filterMap_cons_some (b := item), List.reverse_cons]
    rw [hevent, if_pos rfl]
  · rw [if_neg fun hboth ↦ hk hboth.1, h.items_eq, List.filterMap_cons_none]
    rw [hevent, if_neg (Ne.symm hk)]

theorem Grows.accounted {position : Nat} {run run' : Run} (h : Grows g w limit position run run')
    (inv : Invariant g w limit run) (hrun : run.Accounted g w) : run'.Accounted g w := by
  cases h with
  | @started j =>
    refine ⟨hrun.items_eq, List.forall_mem_cons.2 ⟨trivial, hrun.explains⟩, ?_⟩
    intro i n after before heq
    rcases List.cons_eq_append_iff.1 heq with ⟨-, heq'⟩ | ⟨after', -, heq'⟩
    · obtain ⟨hhead, rfl⟩ := List.cons.inj heq'
      cases hhead
      rw [ItemSet.size, ← Array.length_toList, hrun.items_eq, List.length_reverse]
    · exact hrun.count_eq i n after' before heq'
  | @added event j item _ hinfers =>
    have hreads := (inv.deduces_of_infers hinfers).reads
    have hj : j < run.sets.size := inv.lt_size_sets hreads.position_le
    refine ⟨hrun.items_add hj hinfers.itemAt?_eq,
      List.forall_mem_cons.2 ⟨hinfers.explains, hrun.explains⟩, ?_⟩
    intro i n after before heq
    rcases List.cons_eq_append_iff.1 heq with ⟨-, heq'⟩ | ⟨after', -, heq'⟩
    · -- what reports an item starts no position
      obtain ⟨rfl, -⟩ := List.cons.inj heq'
      cases hinfers.started?_eq
    · exact hrun.count_eq i n after' before heq'

theorem Reaches.accounted {position : Nat} {run run' : Run}
    (h : Reaches g w limit position run run') (inv : Invariant g w limit run)
    (hrun : run.Accounted g w) : run'.Accounted g w :=
  (h.preserves (P := fun run ↦ Invariant g w limit run ∧ run.Accounted g w)
    (fun _ _ hgrows hboth ↦ ⟨hgrows.invariant hboth.1, hgrows.accounted hboth.1 hboth.2⟩)
    ⟨inv, hrun⟩).2

end Run

/-! ## The order of the events -/

/-- An event can stand before another: stages do not go down, and go up where a position is
started. -/
def Precedes (e e' : Event) : Prop :=
  e.stage < e'.stage ∨ e.stage = e'.stage ∧ e'.started? = none

namespace Moment

variable {m m' : Moment}

/-- The events up to a moment, the latest first, have come stage by stage. -/
structure Staged (m : Moment) : Prop where
  stage_le : ∀ e ∈ m.run.events, e.stage ≤ m.started
  pairwise : m.run.events.Pairwise fun e' e ↦ Precedes e e'
  started_eq : m.run.events.filterMap (·.started?) = (List.range m.started).reverse

theorem staged_start (g : Grammar) (w : List Char) : (start g w).Staged where
  stage_le := nofun
  pairwise := .nil
  started_eq := rfl

theorem Staged.moves (h : m.Staged) (hsound : m.Sound g w limit) (hmoves : Moves g w limit m m') :
    m'.Staged := by
  cases hmoves with
  | @push run run' started place q qs hpush =>
    rcases eq_or_eq_add_of_push hpush with rfl | rfl
    · exact ⟨h.stage_le, h.pairwise, h.started_eq⟩
    · have hstage : q.event.stage = started := hsound.stage_eq q (.head _)
      have hnone := (hsound.infers q (.head _)).started?_eq
      refine ⟨List.forall_mem_cons.2 ⟨Nat.le_of_eq hstage, h.stage_le⟩, ?_, ?_⟩
      · refine List.pairwise_cons.2 ⟨fun e he ↦ ?_, h.pairwise⟩
        rcases Nat.lt_or_eq_of_le (h.stage_le e he) with hlt | heq
        · exact .inl (Nat.lt_of_lt_of_eq hlt hstage.symm)
        · exact .inr ⟨heq.trans hstage.symm, hnone⟩
      · rw [add, List.filterMap_cons_none hnone, h.started_eq]
  | take => exact ⟨h.stage_le, h.pairwise, h.started_eq⟩
  | @turn run i place =>
    refine ⟨List.forall_mem_cons.2 ⟨Nat.le_refl _, fun e he ↦ Nat.le_succ_of_le (h.stage_le e he)⟩,
      List.pairwise_cons.2 ⟨fun e he ↦ .inl (Nat.lt_succ_of_le (h.stage_le e he)), h.pairwise⟩, ?_⟩
    change i :: run.events.filterMap (·.started?) = (List.range (i + 1)).reverse
    rw [h.started_eq, List.range_succ, List.reverse_append]
    rfl

theorem Reachable.staged (h : m.Reachable g w limit) : m.Staged := by
  induction h with
  | refl => exact staged_start g w
  | tail hreach hmoves ih => exact ih.moves (Reachable.sound hreach) hmoves

end Moment

/-! ## The events of a run -/

theorem Precedes.stage_le {i n : Nat} {e : Event} (h : Precedes e (.positionStarted i n)) :
    e.stage ≤ i :=
  Nat.le_of_lt_succ (h.resolve_right fun hboth ↦ nomatch hboth.2)

/-- What stands before the start of a position and reports items for it, has scanned them. -/
theorem isAt_eq_isScanAt {i n : Nat} (hi : 0 < i) {e : Event}
    (h : Precedes e (.positionStarted i n)) : e.isAt i = e.isScanAt i := by
  have hle := h.stage_le
  cases e with
  | seeded => simp [Event.isAt, Event.itemAt?, Event.isScanAt, Nat.pos_iff_ne_zero.1 hi]
  | predicted k | completed k =>
    have hne : k ≠ i := Nat.ne_of_lt hle
    simp [Event.isAt, Event.itemAt?, Event.isScanAt, hne]
  | scanned k => by_cases hk : k = i <;> simp [Event.isAt, Event.itemAt?, Event.isScanAt, hk]
  | cellFilled | positionStarted | finished => rfl

/-- Nothing is scanned for a position after its start. -/
theorem isScanAt_eq_false {i n : Nat} {e : Event} (h : Precedes (.positionStarted i n) e) :
    e.isScanAt i = false := by
  have hle : i + 1 ≤ e.stage := h.elim Nat.le_of_lt fun hboth ↦ Nat.le_of_eq hboth.1
  cases e with
  | scanned k => exact decide_eq_false (Nat.ne_of_gt hle)
  | _ => rfl

/-- When a position other than the first is started, what there is for it is what was scanned for
it. -/
theorem filter_isAt_eq {i n : Nat} (hi : 0 < i) {before after : List Event}
    (h : (before ++ .positionStarted i n :: after).Pairwise Precedes) :
    before.filter (·.isAt i) =
      (before ++ .positionStarted i n :: after).filter (·.isScanAt i) := by
  obtain ⟨-, hafter, hbefore⟩ := List.pairwise_append.1 h
  have hnone : (Event.positionStarted i n :: after).filter (·.isScanAt i) = [] := by
    refine List.filter_eq_nil_iff.2 (List.forall_mem_cons.2 ⟨nofun, fun e he ↦ ?_⟩)
    rw [isScanAt_eq_false ((List.pairwise_cons.1 hafter).1 e he)]
    exact Bool.false_ne_true
  rw [List.filter_append, hnone, List.append_nil]
  exact List.filter_congr fun e he ↦ isAt_eq_isScanAt hi (hbefore e he _ (.head _))

/-- The number of items that are reported for a position. -/
theorem length_filterMap_itemAt? (k : Nat) (es : List Event) :
    (es.filterMap (·.itemAt? k)).length = (es.filter (·.isAt k)).length := by
  rw [List.length_filterMap_eq_countP, List.countP_eq_length_filter]
  rfl

/-- The events give the chart, whether or not a limit has stopped the run.  What is reported for a
position are the items of its set, in order and each once.  Positions are started one after the
other, all of them if no limit was hit; the number that goes with a start is that of the items
reported for the position by then, and these are the ones that were ever scanned for it.  Events
explain their items, and the verdict comes once, at the very end. -/
theorem events_give_chart {limits : Limits} (h : w.length ≤ limits.maxLength) :
    ∃ c events, (recognize g w limits).chart = some c ∧
      (recognize g w limits).events = events ++ [.finished (recognize g w limits).verdict] ∧
      (∀ k ≤ w.length, ∃ s, c.set? k = some s ∧
        events.filterMap (·.itemAt? k) = s.items.toList ∧ s.items.toList.Nodup) ∧
      (∀ k, w.length < k → c.set? k = none ∧ events.filterMap (·.itemAt? k) = []) ∧
      (∃ m ≤ w.length + 1, events.filterMap (·.started?) = List.range m ∧
        ((recognize g w limits).verdict.exhausted? = none → m = w.length + 1)) ∧
      (∀ i n before after, events = before ++ .positionStarted i n :: after →
        n = (before.filter (·.isAt i)).length ∧
          (0 < i → before.filter (·.isAt i) = events.filter (·.isScanAt i))) ∧
      ∀ e ∈ events, Explains g w e := by
  obtain ⟨m, hreach, -, hrun, hstarted⟩ := Moment.exists_isLast g w limits.maxStates
  have hsound := hreach.sound
  have hstaged := hreach.staged
  have inv := hsound.invariant
  have haccounted : m.run.Accounted g w := hsound.reaches.accounted invariant_empty accounted_empty
  have hchart : (recognize g w limits).chart = some ⟨g, w, m.run.sets⟩ := by
    rw [hrun]
    exact chart_eq_outcome h
  have hevents : (recognize g w limits).events =
      m.run.events.reverse ++ [.finished (recognize g w limits).verdict] := by
    rw [hrun]
    exact events_eq_outcome h
  have hall : (recognize g w limits).verdict.exhausted? = none → m.started = w.length + 1 := by
    intro hverdict
    obtain ⟨run, hok, -⟩ := exists_run_of_exhausted?_eq_none hverdict
    exact hstarted run hok
  have hitems : ∀ k, m.run.events.reverse.filterMap (·.itemAt? k) = (m.run.set k).items.toList :=
    fun k ↦ by rw [List.filterMap_reverse, haccounted.items_eq]
  have hpairwise : m.run.events.reverse.Pairwise Precedes :=
    List.pairwise_reverse.2 hstaged.pairwise
  refine ⟨_, _, hchart, hevents, fun k hk ↦ ?_, fun k hk ↦ ?_,
    ⟨m.started, hsound.started_le, ?_, hall⟩, ?_, ?_⟩
  · exact ⟨_, set?_eq_set (inv.lt_size_sets hk), hitems k, (inv.coherent k hk).nodup⟩
  · have hsize : m.run.sets.size ≤ k := inv.size_sets ▸ hk
    refine ⟨Array.getElem?_eq_none hsize, ?_⟩
    rw [hitems, set_of_size_le hsize, ItemSet.items_default]
  · rw [List.filterMap_reverse, hstaged.started_eq, List.reverse_reverse]
  · intro i n before after heq
    refine ⟨?_, fun hi ↦ ?_⟩
    · have heq' : m.run.events = after.reverse ++ .positionStarted i n :: before.reverse := by
        rw [← List.reverse_reverse m.run.events, heq, List.reverse_append, List.reverse_cons,
          List.append_assoc]
        rfl
      rw [haccounted.count_eq i n _ _ heq', List.filterMap_reverse, List.length_reverse,
        length_filterMap_itemAt?]
    · rw [heq] at hpairwise ⊢
      exact filter_isAt_eq hi hpairwise
  · exact fun e he ↦ haccounted.explains e (List.mem_reverse.1 he)

/-- With room for three items, the run of `S → S S | a` over `a a` is stopped in the set behind the
first character, when the fourth item of that is predicted. -/
theorem events_give_chart_stopped :
    let g : Grammar := ⟨["S"], [⟨⟨0⟩, [.nonterm ⟨0⟩, .nonterm ⟨0⟩]⟩, ⟨⟨0⟩, [.term 'a']⟩], ⟨0⟩⟩
    (recognize g ['a', 'a'] ⟨2, 3⟩).verdict = .exhausted (.tooManyItems 1 3) ∧
      ∃ c s events, (recognize g ['a', 'a'] ⟨2, 3⟩).chart = some c ∧ c.set? 1 = some s ∧
        s.items.toList = [⟨⟨1⟩, 1, 0⟩, ⟨⟨0⟩, 1, 0⟩, ⟨⟨0⟩, 0, 1⟩] ∧
        (recognize g ['a', 'a'] ⟨2, 3⟩).events =
          events ++ [.finished (.exhausted (.tooManyItems 1 3))] ∧
        events.filterMap (·.started?) = [0, 1] ∧
        events.filter (·.isScanAt 1) = [.scanned 1 ⟨⟨1⟩, 1, 0⟩] ∧
        ∀ e ∈ events, Explains g ['a', 'a'] e := by
  intro g
  have hverdict : (recognize g ['a', 'a'] ⟨2, 3⟩).verdict = .exhausted (.tooManyItems 1 3) := by
    decide +kernel
  have hlist : (recognize g ['a', 'a'] ⟨2, 3⟩).events = [.seeded ⟨⟨0⟩, 0, 0⟩, .seeded ⟨⟨1⟩, 0, 0⟩,
      .positionStarted 0 2, .scanned 1 ⟨⟨1⟩, 1, 0⟩, .positionStarted 1 1,
      .completed 1 ⟨⟨0⟩, 1, 0⟩, .predicted 1 ⟨⟨0⟩, 0, 1⟩] ++
      [.finished (.exhausted (.tooManyItems 1 3))] := by
    decide +kernel
  obtain ⟨c, events, hchart, hevents, hsets, -, -, -, hexplains⟩ :=
    @events_give_chart g ['a', 'a'] ⟨2, 3⟩ (by decide)
  rw [hverdict] at hevents
  obtain rfl := List.append_cancel_right (hevents.symm.trans hlist)
  obtain ⟨s, hs, hitems, -⟩ := hsets 1 (by decide)
  exact ⟨hverdict, c, s, _, hchart, hs, hitems.symm, hlist, rfl, rfl, hexplains⟩

end Earley

end ContextFree
