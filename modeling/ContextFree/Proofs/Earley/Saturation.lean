import ContextFree.Proofs.Earley.Run

/-!
# A finished run is saturated

When a run ends without having been stopped, no rule leads out of its sets, so they hold exactly the
items that can be deduced (`holds_iff_deduces`).

The point is the order of the walk.  An item is dealt with once, when the walk comes to it.  What it
predicts or scans depends on the item alone.  What it completes depends on the set of its origin at
that time: this set lies strictly before the position of the walk, for no production is empty, and
growing at a position changes no set before it.  So what was dealt with stays dealt with.
-/

namespace ContextFree.Earley.Run

variable {g : Grammar} {w : List Char} {limit : Nat}

/-! ## Operations that were not stopped -/

theorem bind_ok {x : Except Halt Run} {f : Run → Except Halt Run} {run : Run}
    (h : x >>= f = .ok run) : ∃ run', x = .ok run' ∧ f run' = .ok run := by
  cases x with
  | error e => cases h
  | ok run' => exact ⟨run', rfl, h⟩

section Pushing

variable {i : Nat} {run run' : Run}

/-- A push that was not stopped leaves its item in the set. -/
theorem holds_of_push (inv : Invariant g w limit run) {event : Event} {item : Item}
    (hi : i ≤ w.length) (h : run.push g limit i event item = .ok run') : run'.Holds i item := by
  rw [push_eq] at h
  split at h
  case isTrue hmem =>
    cases h
    exact ((inv.coherent i hi).contains_iff item).1 hmem
  case isFalse =>
    split at h
    case isTrue => cases h
    case isFalse =>
      cases h
      rw [Holds, set_add, if_pos ⟨rfl, inv.lt_size_sets hi⟩,
        ItemSet.items_insert]
      exact Array.mem_push_self

/-- Pushes one after the other, if none was stopped, leave all their items in the sets. -/
theorem holds_of_pushAll {qs : List Request} (inv : Invariant g w limit run)
    (hinfers : ∀ q ∈ qs, Infers g w run.Holds q.event q.position q.item)
    (h : run.pushAll g limit qs = .ok run') : ∀ q ∈ qs, run'.Holds q.position q.item := by
  induction qs generalizing run with
  | nil => simp
  | cons q qs ih =>
    rw [pushAll, List.foldlM_cons] at h
    obtain ⟨run₁, hpush, hrest⟩ := bind_ok h
    have hq := hinfers q (.head _)
    have hposition := (inv.deduces_of_infers hq).reads.position_le
    have hgrow : Reaches g w limit 0 run run₁ := (reaches_push (Nat.zero_le _) hq).of_ok hpush
    have hinfers' : ∀ q ∈ qs, Infers g w run₁.Holds q.event q.position q.item :=
      fun q hq ↦ (hinfers q (.tail _ hq)).mono fun _ _ ↦ hgrow.holds
    refine List.forall_mem_cons.2 ⟨?_, ih (hgrow.invariant inv) hinfers' hrest⟩
    have hlast : Reaches g w limit 0 run₁ run' :=
      (reaches_pushAll fun q hq ↦ ⟨Nat.zero_le _, hinfers' q hq⟩).of_ok hrest
    exact hlast.holds (holds_of_push inv hposition hpush)

end Pushing

/-! ## Dealing with an item -/

/-- Whatever a rule infers with the item as its first premise is in its set. -/
structure Done (g : Grammar) (w : List Char) (run : Run) (i : Nat) (item : Item) : Prop where
  predicted : ∀ b, item.next? g = some (.nonterm b) → ∀ p ∈ g.alternatives b,
    run.Holds i (.seed p i)
  scanned : ∀ c, item.next? g = some (.term c) → w[i]? = some c → run.Holds (i + 1) item.advance
  completed : item.next? g = none → ∀ waiting, run.Holds item.origin waiting →
    waiting.next? g = some (.nonterm (item.lhs g)) → run.Holds i waiting.advance

/-- What was dealt with stays so while the run grows at its position or behind it. -/
theorem Done.of_reaches (hg : g.NonErasing) {position i : Nat} {run run' : Run} {item : Item}
    (h : Done g w run i item) (hreads : item.Reads g w i) (hi : i ≤ position)
    (hgrow : Reaches g w limit position run run') : Done g w run' i item where
  predicted b hnext p hp := hgrow.holds (h.predicted b hnext p hp)
  scanned c hnext hc := hgrow.holds (h.scanned c hnext hc)
  completed hnext waiting hwaiting hawaited := by
    have horigin := Nat.lt_of_lt_of_le (hreads.origin_lt hg hnext) hi
    rw [Holds, hgrow.set_eq horigin] at hwaiting
    exact hgrow.holds (h.completed hnext waiting hwaiting hawaited)

/-- A step that was not stopped deals with its item. -/
theorem done_of_step (hg : g.NonErasing) {i : Nat} {run run' : Run}
    (inv : Invariant g w limit run) {item : Item} (hitem : run.Holds i item)
    (h : run.step g limit i w[i]? item = .ok run') : Done g w run' i item := by
  have hgrow := (reaches_step inv hitem).of_ok h
  rw [step_eq] at h
  have hholds : ∀ q ∈ run.requests g i w[i]? item, run'.Holds q.position q.item :=
    holds_of_pushAll inv (fun _ hq ↦ (infers_of_mem_requests inv hitem hq).2) h
  constructor
  case predicted =>
    intro b hnext p hp
    simp only [requests, hnext, List.forall_mem_map] at hholds
    exact hholds p hp
  case scanned =>
    intro c hnext hc
    simp only [requests, hnext, if_pos hc, List.forall_mem_singleton] at hholds
    exact hholds
  case completed =>
    intro hnext waiting hwaiting hawaited
    have horigin := (inv.reads hitem).origin_lt hg hnext
    have horigin_le := Nat.le_trans (Nat.le_of_lt horigin) (inv.reads hitem).position_le
    rw [Holds, hgrow.set_eq horigin] at hwaiting
    simp only [requests, hnext, List.forall_mem_map] at hholds
    exact hholds waiting ((inv.mem_waitingFor horigin_le).2 ⟨hwaiting, hawaited⟩)

/-! ## Walking over a set -/

/-- Growing does not move the items that are there. -/
theorem getElem?_of_reaches {position i m : Nat} {run run' : Run}
    (h : Reaches g w limit position run run') (hm : m < (run.set i).size) :
    (run'.set i).items[m]? = (run.set i).items[m]? := by
  obtain ⟨rest, hrest⟩ := h.items_prefix i
  rw [← Array.getElem?_toList, ← Array.getElem?_toList, ← hrest, List.getElem?_append_left]
  exact hm

/-- A walk that was not stopped deals with all items of its set.  The induction carries that the
items before the place of the walk are dealt with; there is room for the others, as no set exceeds
the limit. -/
theorem done_of_walk (hg : g.NonErasing) {i room j : Nat} {run run' : Run}
    (inv : Invariant g w limit run) (hroom : j + room = limit)
    (hdone : ∀ m < j, ∀ item, (run.set i).items[m]? = some item → Done g w run i item)
    (h : walk g limit i w[i]? room j run = .ok run') :
    ∀ item, run'.Holds i item → Done g w run' i item := by
  induction room generalizing j run with
  | zero =>
    cases h
    intro item hitem
    obtain ⟨m, hm, rfl⟩ := Array.mem_iff_getElem.1 hitem
    have hle : (run'.set i).items.size ≤ limit := inv.size_le i
    exact hdone m (by omega) _ (Array.getElem?_eq_getElem hm)
  | succ room ih =>
    rw [walk] at h
    split at h
    case h_1 hend =>
      cases h
      intro item hitem
      obtain ⟨m, hm, rfl⟩ := Array.mem_iff_getElem.1 hitem
      refine hdone m ?_ _ (Array.getElem?_eq_getElem hm)
      exact Nat.lt_of_lt_of_le hm (Array.getElem?_eq_none_iff.1 hend)
    case h_2 item hitem =>
      obtain ⟨run₁, hstep, hrest⟩ := bind_ok h
      have hholds : run.Holds i item := Array.mem_of_getElem? hitem
      have hgrow := (reaches_step inv hholds).of_ok hstep
      refine ih (hgrow.invariant inv) (by omega) (fun m hm item' hitem' ↦ ?_) hrest
      have hj : j < (run.set i).size := (Array.getElem?_eq_some_iff.1 hitem).1
      rw [getElem?_of_reaches hgrow (by omega)] at hitem'
      rcases Nat.lt_succ_iff_lt_or_eq.1 hm with hlt | rfl
      · have hholds' : run.Holds i item' := Array.mem_of_getElem? hitem'
        exact (hdone m hlt item' hitem').of_reaches hg (inv.reads hholds') (Nat.le_refl i) hgrow
      · obtain rfl : item = item' := by simpa [hitem] using hitem'
        exact done_of_step hg inv hholds hstep

/-! ## Whole runs -/

/-- What each visit hands on to the next position holds after all of them. -/
theorem foldlM_zipIdx {α : Type} {f : Run → α × Nat → Except Halt Run} {P : Nat → Run → Prop}
    {l : List α} {first : Nat} {run run' : Run}
    (hP : ∀ a k r r', (a, k) ∈ l.zipIdx first → P k r → f r (a, k) = .ok r' → P (k + 1) r')
    (hrun : P first run) (h : (l.zipIdx first).foldlM f run = .ok run') :
    P (first + l.length) run' := by
  induction l generalizing first run with
  | nil =>
    cases h
    exact hrun
  | cons a l ih =>
    rw [List.zipIdx_cons, List.foldlM_cons] at h
    obtain ⟨run₁, hvisit, hrest⟩ := bind_ok h
    have hnext : P (first + 1) run₁ := hP a first run run₁ (by simp) hrun hvisit
    have hlast := ih (fun b k r r' hb ↦ hP b k r r' (by simp [hb])) hnext hrest
    rwa [Nat.add_right_comm, Nat.add_assoc] at hlast

/-- What the visits before a position have done: the run grew from one that holds the seeds, and
the items of all earlier sets are dealt with. -/
structure Visited (g : Grammar) (w : List Char) (limit position : Nat) (run : Run) : Prop where
  invariant : Invariant g w limit run
  seeds : ∀ p ∈ g.alternatives g.start, run.Holds 0 (.seed p 0)
  done : ∀ i < position, ∀ item, run.Holds i item → Done g w run i item

theorem visited_of_seed {run : Run} (h : (empty w.length).seed g limit = .ok run) :
    Visited g w limit 0 run where
  invariant := ((reaches_seed _).of_ok h).invariant invariant_empty
  seeds p hp := by
    rw [seed_eq] at h
    exact holds_of_pushAll invariant_empty (fun _ ↦ infers_of_mem_seeds) h
      ⟨.seeded (.seed p 0), 0, .seed p 0⟩ (List.mem_map_of_mem hp)
  done i hi := absurd hi (Nat.not_lt_zero i)

/-- A visit deals with the items of its set, and those of earlier sets stay dealt with. -/
theorem Visited.visit (hg : g.NonErasing) {position : Nat} {run run' : Run}
    (hv : Visited g w limit position run)
    (h : run.visit g limit (w[position]?, position) = .ok run') :
    Visited g w limit (position + 1) run' := by
  have hgrow := (reaches_visit hv.invariant).of_ok h
  have hstart : Grows g w limit position run _ := .started run (Nat.le_refl position)
  refine ⟨hgrow.invariant hv.invariant, fun p hp ↦ hgrow.holds (hv.seeds p hp),
    fun i hi item hitem ↦ ?_⟩
  rcases Nat.lt_succ_iff_lt_or_eq.1 hi with hlt | rfl
  · rw [Holds, hgrow.set_eq hlt] at hitem
    exact (hv.done i hlt item hitem).of_reaches hg (hv.invariant.reads hitem) (Nat.le_of_lt hlt)
      hgrow
  · exact done_of_walk hg (hstart.invariant hv.invariant) (Nat.zero_add limit)
      (fun m hm ↦ absurd hm (Nat.not_lt_zero m)) h item hitem

/-- A run that was not stopped has visited every position. -/
theorem visited_of_overInput (hg : g.NonErasing) {run : Run}
    (h : overInput g limit w = .ok run) : Visited g w limit (w.length + 1) run := by
  obtain ⟨run₁, hseed, hvisits⟩ := bind_ok h
  have hlast := foldlM_zipIdx (P := Visited g w limit) (fun next position r r' hmem hv hvisit ↦ by
    obtain rfl := eq_getElem?_of_mem_zipIdx hmem
    exact hv.visit hg hvisit) (visited_of_seed hseed) hvisits
  simpa using hlast

/-- No rule leads out of the sets of a run that was not stopped. -/
theorem closed_of_overInput (hg : g.NonErasing) {run : Run}
    (h : overInput g limit w = .ok run) : Closed g w run.Holds := by
  have hv := visited_of_overInput hg h
  have hdone : ∀ {i item}, run.Holds i item → Done g w run i item := fun hitem ↦
    hv.done _ (Nat.lt_succ_of_le (hv.invariant.reads hitem).position_le) _ hitem
  intro e i item hinfers
  cases hinfers with
  | seeded hp => exact hv.seeds _ hp
  | predicted hitem hnext hp => exact (hdone hitem).predicted _ hnext _ hp
  | scanned hitem hnext hc => exact (hdone hitem).scanned _ hnext hc
  | completed hitem hnext hwaiting hawaited =>
    exact (hdone hitem).completed hnext _ hwaiting hawaited

/-- A run that was not stopped holds exactly the items that can be deduced. -/
theorem holds_iff_deduces (hg : g.NonErasing) {run : Run} (h : overInput g limit w = .ok run)
    {i : Nat} {item : Item} : run.Holds i item ↔ Deduces g w i item :=
  ⟨(visited_of_overInput hg h).invariant.deduces i item,
    fun hd ↦ hd run.Holds (closed_of_overInput hg h)⟩

end ContextFree.Earley.Run
