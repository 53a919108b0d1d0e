import ContextFree.Proofs.Earley.Report

/-!
# What a prefix determines

Left-to-right recognition reads one character after the other.  The sets up to position `k` depend
on the first `k` characters only, although the walk over set `k` reads the next character and puts
items into set `k + 1` on its way, and later walks look into the earlier sets again.

Two runs are compared by what can be seen of them up to position `k`: the sets up to `k`, and the
events about these positions (`Run.SameUpTo`).  What grows a run behind `k` cannot be seen
(`Reaches.sameUpTo`); every other push is made by both runs (`SameUpTo.push`); and a step belongs to
the first kind or to the second one, whatever character comes behind the prefix.
-/

namespace ContextFree

/-- The event is about a position up to `k`. -/
def Event.upTo (k : Nat) : Event → Bool
  | .positionStarted i _ | .predicted i _ | .scanned i _ | .completed i _ => i ≤ k
  | .seeded _ => true
  | .cellFilled .. | .finished _ => false

namespace Earley

variable {g : Grammar} {w u v : List Char} {limit limit' k : Nat}

theorem Infers.upTo_eq {In : Nat → Item → Prop} {e : Event} {i : Nat} {item : Item}
    (h : Infers g w In e i item) (k : Nat) : e.upTo k = decide (i ≤ k) := by
  cases h with
  | seeded => simp [Event.upTo]
  | predicted | scanned | completed => rfl

namespace Run

variable {run run' r r' : Run}

/-! ## What can be seen up to a position -/

/-- Two runs cannot be told apart by their sets up to a position and the events about these. -/
structure SameUpTo (k : Nat) (run run' : Run) : Prop where
  lt_size : k < run.sets.size
  lt_size' : k < run'.sets.size
  set_eq : ∀ i ≤ k, run.set i = run'.set i
  events_eq : run.events.filter (·.upTo k) = run'.events.filter (·.upTo k)

namespace SameUpTo

theorem refl (h : k < run.sets.size) : SameUpTo k run run := ⟨h, h, fun _ _ ↦ rfl, rfl⟩

theorem symm (h : SameUpTo k run run') : SameUpTo k run' run :=
  ⟨h.lt_size', h.lt_size, fun i hi ↦ (h.set_eq i hi).symm, h.events_eq.symm⟩

theorem trans {run'' : Run} (h : SameUpTo k run run') (h' : SameUpTo k run' run'') :
    SameUpTo k run run'' :=
  ⟨h.lt_size, h'.lt_size', fun i hi ↦ (h.set_eq i hi).trans (h'.set_eq i hi),
    h.events_eq.trans h'.events_eq⟩

theorem holds (h : SameUpTo k run run') {i : Nat} (hi : i ≤ k) {item : Item}
    (hitem : run.Holds i item) : run'.Holds i item := by
  rwa [Holds, ← h.set_eq i hi]

end SameUpTo

theorem Grows.sameUpTo (h : Grows g w limit (k + 1) run run') (hk : k < run.sets.size) :
    SameUpTo k run run' := by
  have hset : ∀ i ≤ k, run.set i = run'.set i := fun i hi ↦
    (h.set_eq (Nat.lt_succ_of_le hi)).symm
  cases h with
  | @started i hi =>
    refine ⟨hk, hk, hset, ?_⟩
    rw [List.filter_cons_of_neg]
    simpa [Event.upTo] using Nat.lt_of_succ_le hi
  | @added event i item hi hinfers =>
    refine ⟨hk, by simpa [add] using hk, hset, ?_⟩
    rw [add, List.filter_cons_of_neg]
    simpa [hinfers.upTo_eq] using Nat.lt_of_succ_le hi

/-- What grows a run behind a position cannot be seen up to there. -/
theorem Reaches.sameUpTo (h : Reaches g w limit (k + 1) run run') (hk : k < run.sets.size) :
    SameUpTo k run run' :=
  h.preserves (P := SameUpTo k run)
    (fun _ _ hgrows hsame ↦ hsame.trans (hgrows.sameUpTo hsame.lt_size')) (.refl hk)

/-! ## Operations on both runs -/

/-- A push that both runs make. -/
theorem SameUpTo.push (h : SameUpTo k run run') {i : Nat} (hi : i ≤ k) {event : Event}
    {item : Item} (hr : run.push g limit i event item = .ok r)
    (hr' : run'.push g limit' i event item = .ok r') : SameUpTo k r r' := by
  have hset := h.set_eq i hi
  rw [push_eq] at hr hr'
  rw [← hset] at hr'
  split at hr
  case isTrue hmem =>
    rw [if_pos hmem] at hr'
    cases hr
    cases hr'
    exact h
  case isFalse hmem =>
    rw [if_neg hmem] at hr'
    split at hr
    case isTrue => cases hr
    case isFalse =>
      split at hr'
      case isTrue => cases hr'
      case isFalse =>
        cases hr
        cases hr'
        refine ⟨by simpa [add] using h.lt_size, by simpa [add] using h.lt_size', fun j hj ↦ ?_, ?_⟩
        · have hlt : j < run.sets.size := Nat.lt_of_le_of_lt hj h.lt_size
          have hlt' : j < run'.sets.size := Nat.lt_of_le_of_lt hj h.lt_size'
          simp only [set_add, hlt, hlt', and_true, h.set_eq j hj]
        · simp only [add, List.filter_cons, h.events_eq]

theorem SameUpTo.pushAll (h : SameUpTo k run run') {qs : List Request}
    (hqs : ∀ q ∈ qs, q.position ≤ k) (hr : run.pushAll g limit qs = .ok r)
    (hr' : run'.pushAll g limit' qs = .ok r') : SameUpTo k r r' := by
  induction qs generalizing run run' with
  | nil =>
    cases hr
    cases hr'
    exact h
  | cons q qs ih =>
    obtain ⟨hq, hqs⟩ := List.forall_mem_cons.1 hqs
    rw [pushAll, List.foldlM_cons] at hr hr'
    obtain ⟨run₁, hpush, hr⟩ := bind_ok hr
    obtain ⟨run₁', hpush', hr'⟩ := bind_ok hr'
    exact ih (h.push hq hpush hpush') hqs hr hr'

/-- An item asks for additions at its own position, unless it reads the next character. -/
theorem position_of_mem_requests {position : Nat} {next : Option Char} {item : Item}
    {q : Request} (hq : q ∈ run.requests g position next item) :
    (q.position = position ∧ ∀ c, item.next? g ≠ some (.term c)) ∨
      (q.position = position + 1 ∧ ∃ c, item.next? g = some (.term c)) := by
  rw [requests] at hq
  split at hq
  case h_1 hnext =>
    obtain ⟨waiting, -, rfl⟩ := List.mem_map.1 hq
    exact .inl ⟨rfl, fun c hc ↦ by cases hnext.symm.trans hc⟩
  case h_2 hnext =>
    obtain ⟨p, -, rfl⟩ := List.mem_map.1 hq
    exact .inl ⟨rfl, fun c hc ↦ by cases hnext.symm.trans hc⟩
  case h_3 c hnext =>
    split at hq
    case isTrue =>
      obtain rfl := List.mem_singleton.1 hq
      exact .inr ⟨rfl, c, hnext⟩
    case isFalse => cases hq

/-- What an item asks for can be seen in what went before, and in the next character if it reads
that. -/
theorem SameUpTo.requests_eq (h : SameUpTo k run run') {position : Nat} {next next' : Option Char}
    {item : Item} (horigin : item.origin ≤ k)
    (hnext : ∀ c, item.next? g = some (.term c) → next = next') :
    run.requests g position next item = run'.requests g position next' item := by
  rw [requests, requests]
  cases hitem : item.next? g with
  | none => rw [h.set_eq _ horigin]
  | some s =>
    cases s with
    | nonterm b => rfl
    | term c => rw [hnext c hitem]

theorem SameUpTo.walk_of_end (h : SameUpTo k run run') {position room room' j : Nat}
    {next next' : Option Char} (hposition : position ≤ k)
    (hend : (run.set position).items[j]? = none)
    (hr : walk g limit position next room j run = .ok r)
    (hr' : walk g limit' position next' room' j run' = .ok r') : SameUpTo k r r' := by
  rw [Run.walk_of_end hend] at hr
  rw [h.set_eq position hposition] at hend
  rw [Run.walk_of_end hend] at hr'
  cases hr
  cases hr'
  exact h

section Inputs

variable {position : Nat} (hposition : position ≤ k)
  (hnext : position < k → u[position]? = v[position]?)

include hposition hnext

/-- A step of both runs.  If it reads the character behind the prefix, which may be another one in
the second input, all that it adds is behind the prefix. -/
theorem SameUpTo.step (h : SameUpTo k run run') (inv : Invariant g u limit run)
    (inv' : Invariant g v limit' run') {item : Item} (hitem : run.Holds position item)
    (hr : run.step g limit position u[position]? item = .ok r)
    (hr' : run'.step g limit' position v[position]? item = .ok r') : SameUpTo k r r' := by
  have hitem' : run'.Holds position item := h.holds hposition hitem
  rw [step_eq] at hr hr'
  by_cases hreads : position = k ∧ ∃ c, item.next? g = some (.term c)
  · obtain ⟨rfl, c, hc⟩ := hreads
    have hbehind : ∀ {run : Run} {next : Option Char},
        ∀ q ∈ run.requests g position next item, position + 1 ≤ q.position := fun q hq ↦
      (position_of_mem_requests hq).elim (fun hboth ↦ absurd hc (hboth.2 c))
        fun hboth ↦ Nat.le_of_eq hboth.1.symm
    have hreach : Reaches g u limit (position + 1) run (outcome _) := reaches_pushAll fun q hq ↦
      ⟨hbehind q hq, (infers_of_mem_requests inv hitem hq).2⟩
    have hreach' : Reaches g v limit' (position + 1) run' (outcome _) := reaches_pushAll fun q hq ↦
      ⟨hbehind q hq, (infers_of_mem_requests inv' hitem' hq).2⟩
    exact ((hreach.of_ok hr).sameUpTo h.lt_size).symm.trans
      (h.trans ((hreach'.of_ok hr').sameUpTo h.lt_size'))
  · have horigin : item.origin ≤ k := Nat.le_trans (inv.reads hitem).origin_le hposition
    have heq : ∀ c, item.next? g = some (.term c) → position < k := fun c hc ↦
      Nat.lt_of_le_of_ne hposition fun heq ↦ hreads ⟨heq, c, hc⟩
    rw [← h.requests_eq horigin fun c hc ↦ hnext (heq c hc)] at hr'
    refine h.pushAll (fun q hq ↦ ?_) hr hr'
    rcases position_of_mem_requests hq with ⟨hq, -⟩ | ⟨hq, c, hc⟩
    · exact hq ▸ hposition
    · exact hq ▸ heq c hc

/-- A walk of both runs.  Under either limit there is room for all items, so both walks come to the
end of the set, and it is the same set. -/
theorem SameUpTo.walk (h : SameUpTo k run run') (inv : Invariant g u limit run)
    (inv' : Invariant g v limit' run') {room room' j : Nat} (hroom : limit ≤ j + room)
    (hroom' : limit' ≤ j + room')
    (hr : walk g limit position u[position]? room j run = .ok r)
    (hr' : walk g limit' position v[position]? room' j run' = .ok r') : SameUpTo k r r' := by
  induction room generalizing room' j run run' with
  | zero =>
    have hend : (run.set position).items[j]? = none :=
      Array.getElem?_eq_none (Nat.le_trans (inv.size_le position) hroom)
    exact h.walk_of_end hposition hend hr hr'
  | succ room ih =>
    cases hitem : (run.set position).items[j]? with
    | none => exact h.walk_of_end hposition hitem hr hr'
    | some item =>
      have hitem' : (run'.set position).items[j]? = some item := by
        rwa [← h.set_eq position hposition]
      have hlt := (Array.getElem?_eq_some_iff.1 hitem').1
      have hsize := inv'.size_le position
      rw [ItemSet.size] at hsize
      obtain ⟨room', rfl⟩ : ∃ n, room' = n + 1 := ⟨room' - 1, by omega⟩
      simp only [Run.walk, hitem] at hr
      simp only [Run.walk, hitem'] at hr'
      obtain ⟨run₁, hstep, hr⟩ := bind_ok hr
      obtain ⟨run₁', hstep', hr'⟩ := bind_ok hr'
      have hholds : run.Holds position item := Array.mem_of_getElem? hitem
      have hholds' : run'.Holds position item := Array.mem_of_getElem? hitem'
      exact ih (h.step hposition hnext inv inv' hholds hstep hstep')
        (((reaches_step inv hholds).of_ok hstep).invariant inv)
        (((reaches_step inv' hholds').of_ok hstep').invariant inv') (by omega) (by omega) hr hr'

theorem SameUpTo.visit (h : SameUpTo k run run') (inv : Invariant g u limit run)
    (inv' : Invariant g v limit' run')
    (hr : run.visit g limit (u[position]?, position) = .ok r)
    (hr' : run'.visit g limit' (v[position]?, position) = .ok r') : SameUpTo k r r' := by
  have hset := h.set_eq position hposition
  have hstart : Grows g u limit position run _ := .started run (Nat.le_refl position)
  have hstart' : Grows g v limit' position run' _ := .started run' (Nat.le_refl position)
  have hstarted : SameUpTo k
      { run with events := .positionStarted position (run.set position).size :: run.events }
      { run' with events := .positionStarted position (run'.set position).size :: run'.events } := by
    refine ⟨h.lt_size, h.lt_size', h.set_eq, ?_⟩
    simp only [List.filter_cons, hset, h.events_eq]
  exact hstarted.walk hposition hnext (hstart.invariant inv) (hstart'.invariant inv')
    (Nat.le_add_left _ _) (Nat.le_add_left _ _) hr hr'

end Inputs

/-- Visits of both runs to the positions of the prefix, and to the one behind it. -/
theorem SameUpTo.visits (hagree : ∀ i < k, u[i]? = v[i]?) {is : List Nat} (his : ∀ i ∈ is, i ≤ k)
    (h : SameUpTo k run run') (inv : Invariant g u limit run) (inv' : Invariant g v limit' run')
    (hr : (is.map fun i ↦ (u[i]?, i)).foldlM (Run.visit g limit) run = .ok r)
    (hr' : (is.map fun i ↦ (v[i]?, i)).foldlM (Run.visit g limit') run' = .ok r') :
    SameUpTo k r r' := by
  induction is generalizing run run' with
  | nil =>
    cases hr
    cases hr'
    exact h
  | cons i is ih =>
    obtain ⟨hi, his⟩ := List.forall_mem_cons.1 his
    rw [List.map_cons, List.foldlM_cons] at hr hr'
    obtain ⟨run₁, hvisit, hr⟩ := bind_ok hr
    obtain ⟨run₁', hvisit', hr'⟩ := bind_ok hr'
    exact ih his (h.visit hi (hagree i) inv inv' hvisit hvisit')
      (((reaches_visit inv).of_ok hvisit).invariant inv)
      (((reaches_visit inv').of_ok hvisit').invariant inv') hr hr'

/-! ## Whole runs -/

/-- The positions that are visited, by their numbers. -/
theorem overInput_eq (g : Grammar) (limit : Nat) (w : List Char) :
    overInput g limit w = (empty w.length).seed g limit >>=
      ((List.range (w.length + 1)).map fun i ↦ (w[i]?, i)).foldlM (visit g limit) := by
  have hpositions : (w.map some ++ [none]).zipIdx =
      (List.range (w.length + 1)).map fun i ↦ (w[i]?, i) := by
    refine List.ext_getElem (by simp) fun i hi _ ↦ ?_
    have hmem := List.getElem_mem hi
    rw [List.getElem_map, List.getElem_range]
    rw [List.getElem_zipIdx, Nat.zero_add] at hmem ⊢
    rw [eq_getElem?_of_mem_zipIdx hmem]
  rw [overInput, hpositions]

/-- Up to a position of the input, a run looks in the end as it did when it had visited this
position. -/
theorem exists_visited (hk : k ≤ w.length) (h : overInput g limit w = .ok run) :
    ∃ seeded visited, (empty w.length).pushAll g limit (seeds g) = .ok seeded ∧
      Invariant g w limit seeded ∧
      ((List.range (k + 1)).map fun i ↦ (w[i]?, i)).foldlM (visit g limit) seeded = .ok visited ∧
      SameUpTo k visited run := by
  rw [overInput_eq] at h
  obtain ⟨seeded, hseed, h⟩ := bind_ok h
  have inv : Invariant g w limit seeded := ((reaches_seed _).of_ok hseed).invariant invariant_empty
  obtain ⟨n, hn⟩ := Nat.exists_eq_add_of_le hk
  rw [hn, Nat.add_right_comm, List.range_add, List.map_append, List.foldlM_append] at h
  obtain ⟨visited, hvisits, h⟩ := bind_ok h
  have hbefore : Reaches g w limit 0 seeded visited := by
    refine (reaches_visits inv fun x hx ↦ ?_).of_ok hvisits
    obtain ⟨i, -, rfl⟩ := List.mem_map.1 hx
    exact ⟨Nat.zero_le i, rfl⟩
  have inv' := hbefore.invariant inv
  have hbehind : Reaches g w limit (k + 1) visited run := by
    refine (reaches_visits inv' fun x hx ↦ ?_).of_ok h
    obtain ⟨i, hi, rfl⟩ := List.mem_map.1 hx
    obtain ⟨j, -, rfl⟩ := List.mem_map.1 hi
    exact ⟨Nat.le_add_right _ _, rfl⟩
  rw [seed_eq] at hseed
  exact ⟨seeded, visited, hseed, inv, hvisits, hbehind.sameUpTo (inv'.lt_size_sets hk)⟩

/-- Two runs over inputs with the same prefix. -/
theorem sameUpTo_overInput (hu : k ≤ u.length) (hv : k ≤ v.length)
    (hagree : u.take k = v.take k) (h : overInput g limit u = .ok run)
    (h' : overInput g limit' v = .ok run') : SameUpTo k run run' := by
  obtain ⟨seeded, visited, hseed, inv, hvisits, hrest⟩ := exists_visited hu h
  obtain ⟨seeded', visited', hseed', inv', hvisits', hrest'⟩ := exists_visited hv h'
  have hempty : SameUpTo k (empty u.length) (empty v.length) := by
    refine ⟨by simpa [empty] using Nat.lt_succ_of_le hu, by simpa [empty] using Nat.lt_succ_of_le hv,
      fun i hi ↦ ?_, rfl⟩
    rw [set_empty, set_empty, if_pos (Nat.le_trans hi hu), if_pos (Nat.le_trans hi hv)]
  have hseeded : SameUpTo k seeded seeded' := by
    refine hempty.pushAll (fun q hq ↦ ?_) hseed hseed'
    obtain ⟨p, -, rfl⟩ := List.mem_map.1 hq
    exact Nat.zero_le k
  have hget : ∀ i < k, u[i]? = v[i]? := fun i hi ↦ by
    rw [← List.getElem?_take_of_lt hi, hagree, List.getElem?_take_of_lt hi]
  have hvisited : SameUpTo k visited visited' :=
    hseeded.visits hget (fun i hi ↦ Nat.le_of_lt_succ (List.mem_range.1 hi)) inv inv' hvisits hvisits'
  exact hrest.symm.trans (hvisited.trans hrest')

end Run

/-! ## Events up to a start -/

open Run

/-- What comes before `k` in a range are the numbers below. -/
theorem eq_range_of_append_cons_eq_range {l l' : List Nat} {m : Nat}
    (h : l ++ k :: l' = List.range m) : l = List.range k := by
  have hlength : l.length < m := by
    have := congrArg List.length h
    rw [List.length_append, List.length_cons, List.length_range] at this
    omega
  have hk : k = l.length := by
    have := congrArg (·[l.length]?) h
    simpa [hlength] using this
  have htake := congrArg (List.take l.length) h
  rwa [List.take_left' rfl, List.take_range, Nat.min_eq_left (Nat.le_of_lt hlength), ← hk] at htake

theorem started?_eq_some_iff {e : Event} : e.started? = some k ↔ ∃ n, e = .positionStarted k n := by
  cases e <;> simp [Event.started?]

/-- What stands before the start of a position is about positions up to there. -/
theorem upTo_of_precedes {n : Nat} {e : Event} (he : Explains g w e)
    (h : Precedes e (.positionStarted k n)) : e.upTo k = true := by
  have hle := h.stage_le
  cases e with
  | seeded => rfl
  | positionStarted | predicted | completed => exact decide_eq_true (Nat.le_of_lt hle)
  | scanned => exact decide_eq_true hle
  | cellFilled | finished => cases he

/-- In a run that goes to the end, each position is started, after those before it. -/
theorem exists_start (hk : k ≤ w.length) {run : Run} (h : overInput g limit w = .ok run) :
    ∃ before n after, run.events.reverse = before ++ .positionStarted k n :: after ∧
      before.filterMap (·.started?) = List.range k ∧ ∀ e ∈ before, e.upTo k = true := by
  obtain ⟨m, hreach, -, hrun, hstarted⟩ := Moment.exists_isLast g w limit
  have hlast := hstarted run h
  have hstaged := hreach.staged
  have haccounted := hreach.sound.reaches.accounted invariant_empty accounted_empty
  rw [h, outcome_ok] at hrun
  subst hrun
  have hall : m.run.events.reverse.filterMap (·.started?) = List.range (w.length + 1) := by
    rw [List.filterMap_reverse, hstaged.started_eq, List.reverse_reverse, hlast]
  have hmem : k ∈ m.run.events.reverse.filterMap (·.started?) := by
    rw [hall]
    exact List.mem_range.2 (Nat.lt_succ_of_le hk)
  obtain ⟨e, he, hek⟩ := List.mem_filterMap.1 hmem
  obtain ⟨n, rfl⟩ := started?_eq_some_iff.1 hek
  obtain ⟨before, after, heq⟩ := List.append_of_mem he
  have hpairwise := List.pairwise_reverse.2 hstaged.pairwise
  have hexplains : ∀ e ∈ m.run.events.reverse, Explains g w e := fun e he ↦
    haccounted.explains e (List.mem_reverse.1 he)
  rw [heq] at hall hpairwise hexplains
  rw [List.filterMap_append, List.filterMap_cons_some hek] at hall
  refine ⟨before, n, after, heq, eq_range_of_append_cons_eq_range hall, fun e he ↦ ?_⟩
  exact upTo_of_precedes (hexplains e (List.mem_append_left _ he))
    ((List.pairwise_append.1 hpairwise).2.2 e he _ (.head _))

/-- Two lists of events that both begin with everything up to the start of a position begin with the
same events. -/
theorem eq_of_start_eq_start {before before' after after' : List Event} {n n' : Nat}
    (h : before.filterMap (·.started?) = List.range k)
    (h' : before'.filterMap (·.started?) = List.range k)
    (heq : before ++ .positionStarted k n :: after = before' ++ .positionStarted k n' :: after') :
    before = before' ∧ n = n' := by
  have htake : ∀ {before after : List Event} {n : Nat},
      before.filterMap (·.started?) = List.range k →
      (before ++ .positionStarted k n :: after).takeWhile (·.started? ≠ some k) = before := by
    intro before after n h
    rw [List.takeWhile_append_of_pos, List.takeWhile_cons_of_neg, List.append_nil]
    · simp [Event.started?]
    · intro e he
      refine decide_eq_true fun hek ↦ ?_
      have hmem := List.mem_filterMap.2 ⟨e, he, hek⟩
      rw [h] at hmem
      exact Nat.lt_irrefl k (List.mem_range.1 hmem)
  obtain rfl : before = before' := by rw [← htake h, heq, htake h']
  have hhead := (List.cons.inj (List.append_cancel_left heq)).1
  cases hhead
  exact ⟨rfl, rfl⟩

/-! ## The result -/

/-- Left-to-right recognition is online.  On two inputs with the first `k` characters in common, and
under limits that are not hit, the sets up to position `k` are the same, item by item, whatever
follows; so are the events up to the start of position `k`, which come after those of the positions
before it; and so is whatever is reported of the positions up to `k` later on. -/
theorem prefix_determines_sets {limits limits' : Limits} (hu : k ≤ u.length) (hv : k ≤ v.length)
    (hagree : u.take k = v.take k) (h : (recognize g u limits).verdict.exhausted? = none)
    (h' : (recognize g v limits').verdict.exhausted? = none) :
    ∃ c c', (recognize g u limits).chart = some c ∧ (recognize g v limits').chart = some c' ∧
      (∀ i ≤ k, ∃ s, c.set? i = some s ∧ c'.set? i = some s) ∧
      (∃ before n after after',
        (recognize g u limits).events = before ++ .positionStarted k n :: after ∧
        (recognize g v limits').events = before ++ .positionStarted k n :: after' ∧
        before.filterMap (·.started?) = List.range k) ∧
      (recognize g u limits).events.filter (·.upTo k) =
        (recognize g v limits').events.filter (·.upTo k) := by
  obtain ⟨run, hrun, -⟩ := exists_run_of_exhausted?_eq_none h
  obtain ⟨run', hrun', -⟩ := exists_run_of_exhausted?_eq_none h'
  have hevents := events_eq_of_run (length_le_of_exhausted?_eq_none h) hrun
  have hevents' := events_eq_of_run (length_le_of_exhausted?_eq_none h') hrun'
  have hsame := sameUpTo_overInput hu hv hagree hrun hrun'
  have hfilter : run.events.reverse.filter (·.upTo k) = run'.events.reverse.filter (·.upTo k) := by
    rw [List.filter_reverse, List.filter_reverse, hsame.events_eq]
  refine ⟨_, _, chart_eq_of_run (length_le_of_exhausted?_eq_none h) hrun,
    chart_eq_of_run (length_le_of_exhausted?_eq_none h') hrun', fun i hi ↦ ?_, ?_, ?_⟩
  · rw [set?_eq_set (Nat.lt_of_le_of_lt hi hsame.lt_size),
      set?_eq_set (Nat.lt_of_le_of_lt hi hsame.lt_size'), hsame.set_eq i hi]
    exact ⟨_, rfl, rfl⟩
  · obtain ⟨before, n, after, hsplit, hstarted, hupTo⟩ := exists_start hu hrun
    obtain ⟨before', n', after', hsplit', hstarted', hupTo'⟩ := exists_start hv hrun'
    have hboth : before = before' ∧ n = n' := by
      rw [hsplit, hsplit', List.filter_append, List.filter_append, List.filter_eq_self.2 hupTo,
        List.filter_eq_self.2 hupTo', List.filter_cons_of_pos (by simp [Event.upTo]),
        List.filter_cons_of_pos (by simp [Event.upTo])] at hfilter
      exact eq_of_start_eq_start hstarted hstarted' hfilter
    obtain ⟨rfl, rfl⟩ := hboth
    rw [hsplit, List.append_assoc, List.cons_append] at hevents
    rw [hsplit', List.append_assoc, List.cons_append] at hevents'
    exact ⟨before, n, _, _, hevents, hevents', hstarted⟩
  · -- the verdict is about no position
    rw [hevents, hevents', List.filter_append, List.filter_append, hfilter]
    rfl

/-- In `S → S S | a` the inputs `a a a` and `a a b` have two characters in common; the walk over the
set behind these reads the third one. -/
theorem prefix_determines_sets_ambiguous :
    let g : Grammar := ⟨["S"], [⟨⟨0⟩, [.nonterm ⟨0⟩, .nonterm ⟨0⟩]⟩, ⟨⟨0⟩, [.term 'a']⟩], ⟨0⟩⟩
    (recognize g ['a', 'a', 'a'] {}).verdict = .accepted ∧
      (recognize g ['a', 'a', 'b'] {}).verdict = .rejected ∧
      ∃ c c' s, (recognize g ['a', 'a', 'a'] {}).chart = some c ∧
        (recognize g ['a', 'a', 'b'] {}).chart = some c' ∧
        c.set? 2 = some s ∧ c'.set? 2 = some s ∧ s.size = 6 := by
  intro g
  have hverdict : (recognize g ['a', 'a', 'a'] {}).verdict = .accepted := by decide +kernel
  have hverdict' : (recognize g ['a', 'a', 'b'] {}).verdict = .rejected := by decide +kernel
  have hsize : ((recognize g ['a', 'a', 'b'] {}).chart.bind (·.set? 2)).map (·.size) = some 6 := by
    decide +kernel
  obtain ⟨c, c', hc, hc', hsets, -⟩ := @prefix_determines_sets g ['a', 'a', 'a'] ['a', 'a', 'b'] 2
    {} {} (by decide) (by decide) rfl (by rw [hverdict]; rfl) (by rw [hverdict']; rfl)
  obtain ⟨s, hs, hs'⟩ := hsets 2 (Nat.le_refl 2)
  rw [hc', Option.bind_some, hs', Option.map_some, Option.some.injEq] at hsize
  exact ⟨hverdict, hverdict', c, c', s, hc, hc', hs, hs', hsize⟩

end Earley

end ContextFree
