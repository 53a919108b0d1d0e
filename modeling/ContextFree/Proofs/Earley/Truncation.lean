import ContextFree.Proofs.Earley.Bound
import ContextFree.Proofs.Earley.Membership

/-!
# What the limit on items does

Under a smaller limit a run does the same as under a larger one, until a new item comes for a set
that is full; there it stops, with everything that it has done so far.  `Run.Cuts` compares an
operation under the two limits, and the lemmas on `push`, `step`, `walk` and `overInput` carry the
comparison from one push to whole runs.

A run under a limit that no set reaches is the whole run, and there is one, for no set can hold more
than its capacity.  `limit_truncates` says how recognition under any limit compares with it.
-/

namespace ContextFree.Earley

variable {g : Grammar} {w : List Char} {limit limit' : Nat}

namespace Run

variable {position : Nat} {run run' : Run}

/-! ## What growing leaves as it is -/

/-- Growing reports at the end of what was reported. -/
theorem Grows.events_suffix (h : Grows g w limit position run run') :
    run.events <:+ run'.events := by
  cases h with
  | started => exact List.suffix_cons _ _
  | added => exact List.suffix_cons _ _

namespace Reaches

theorem events_suffix (h : Reaches g w limit position run run') : run.events <:+ run'.events :=
  h.preserves (P := fun r ↦ run.events <:+ r.events)
    (fun _ _ hgrows hsuffix ↦ hsuffix.trans hgrows.events_suffix) List.suffix_rfl

theorem size_le (h : Reaches g w limit position run run') (i : Nat) :
    (run.set i).size ≤ (run'.set i).size := by
  have hle := (h.items_prefix i).length_le
  rwa [Array.length_toList, Array.length_toList] at hle

end Reaches

/-- What holds of a run under a limit holds of it under a larger one. -/
theorem Invariant.of_le (hle : limit ≤ limit') (inv : Invariant g w limit run) :
    Invariant g w limit' run :=
  { inv with size_le := fun i ↦ Nat.le_trans (inv.size_le i) hle }

/-! ## Operations under two limits -/

/-- What an operation gives under a limit, compared with what it gives under a larger one: the same;
or it is stopped at a set that gets more items under the larger limit, and what was done up to there
is done under the larger limit too. -/
structure Cuts (g : Grammar) (w : List Char) (limit limit' : Nat) (x y : Except Halt Run) :
    Prop where
  ok : ∀ run, x = .ok run → y = .ok run
  error : ∀ h, x = .error h → ∃ i, h.cause = .tooManyItems i limit ∧
    Reaches g w limit' 0 h.run (outcome y) ∧ limit < ((outcome y).set i).size

theorem cuts_ok (run : Run) : Cuts g w limit limit' (.ok run) (.ok run) := ⟨fun _ h ↦ h, nofun⟩

theorem cuts_bind {x y : Except Halt Run} {f f' : Run → Except Halt Run}
    (hx : Cuts g w limit limit' x y)
    (hf : ∀ run, x = .ok run → Cuts g w limit limit' (f run) (f' run))
    (hgrow : ∀ run, y = .ok run → Reaches g w limit' 0 run (outcome (f' run))) :
    Cuts g w limit limit' (x >>= f) (y >>= f') := by
  cases x with
  | ok run =>
    rw [hx.ok run rfl]
    exact hf run rfl
  | error h =>
    refine ⟨nofun, ?_⟩
    rintro h ⟨⟩
    obtain ⟨i, hcause, hreach, hsize⟩ := hx.error h rfl
    have hrest : Reaches g w limit' 0 (outcome y) (outcome (y >>= f')) :=
      reaches_bind .refl hgrow
    exact ⟨i, hcause, hreach.trans hrest, Nat.lt_of_lt_of_le hsize (hrest.size_le i)⟩

theorem cuts_foldlM {α : Type} {f f' : Run → α → Except Halt Run} {l : List α}
    (hcut : ∀ a ∈ l, ∀ r, Reaches g w limit 0 run r → Cuts g w limit limit' (f r a) (f' r a))
    (hgrow : ∀ a ∈ l, ∀ r, Reaches g w limit 0 run r →
      Reaches g w limit 0 r (outcome (f r a)))
    (hgrow' : ∀ a ∈ l, ∀ r, Reaches g w limit' 0 run r →
      Reaches g w limit' 0 r (outcome (f' r a))) :
    Cuts g w limit limit' (l.foldlM f run) (l.foldlM f' run) := by
  induction l generalizing run with
  | nil => exact cuts_ok run
  | cons a l ih =>
    rw [List.foldlM_cons, List.foldlM_cons]
    refine cuts_bind (hcut a (.head _) run .refl) (fun r hr ↦ ?_) (fun r hr ↦ ?_)
    · have hhead := (hgrow a (.head _) run .refl).of_ok hr
      have hhead' := (hgrow' a (.head _) run .refl).of_ok
        ((hcut a (.head _) run .refl).ok r hr)
      exact ih (fun b hb r' hr' ↦ hcut b (.tail _ hb) r' (hhead.trans hr'))
        (fun b hb r' hr' ↦ hgrow b (.tail _ hb) r' (hhead.trans hr'))
        (fun b hb r' hr' ↦ hgrow' b (.tail _ hb) r' (hhead'.trans hr'))
    · have hhead' := (hgrow' a (.head _) run .refl).of_ok hr
      exact reaches_foldlM fun b hb r' hr' ↦ hgrow' b (.tail _ hb) r' (hhead'.trans hr')

section Operations

variable (hlt : limit < limit')

include hlt

/-- Of a push under two limits, only the one under the smaller limit can be stopped alone, and then
the other one adds the item. -/
theorem cuts_push (inv : Invariant g w limit run) {event : Event} {i : Nat} {item : Item}
    (h : Infers g w run.Holds event i item) :
    Cuts g w limit limit' (run.push g limit i event item) (run.push g limit' i event item) := by
  rw [push_eq, push_eq]
  by_cases hmem : (run.set i).contains item
  · rw [if_pos hmem, if_pos hmem]
    exact cuts_ok run
  rw [if_neg hmem, if_neg hmem]
  by_cases hfull : limit ≤ (run.set i).size
  · rw [if_pos hfull]
    refine ⟨nofun, ?_⟩
    rintro _ ⟨⟩
    refine ⟨i, rfl, ?_⟩
    by_cases hfull' : limit' ≤ (run.set i).size
    · rw [if_pos hfull']
      exact ⟨.refl, Nat.lt_of_lt_of_le hlt hfull'⟩
    · rw [if_neg hfull']
      have hi : i < run.sets.size :=
        inv.lt_size_sets (inv.deduces_of_infers h).reads.position_le
      refine ⟨.single (.added (Nat.zero_le _) h (Bool.eq_false_iff.2 hmem)
        (Nat.lt_of_not_le hfull')), ?_⟩
      rw [outcome_ok, set_add, if_pos ⟨rfl, hi⟩, ItemSet.size_insert]
      exact Nat.lt_succ_of_le hfull
  · rw [if_neg hfull, if_neg fun hfull' ↦ hfull (Nat.le_of_lt (Nat.lt_of_lt_of_le hlt hfull'))]
    exact cuts_ok _

theorem cuts_pushAll (inv : Invariant g w limit run) {qs : List Request}
    (h : ∀ q ∈ qs, Infers g w run.Holds q.event q.position q.item) :
    Cuts g w limit limit' (run.pushAll g limit qs) (run.pushAll g limit' qs) := by
  have hinfers : ∀ {limit : Nat} {r : Run}, Reaches g w limit 0 run r → ∀ q ∈ qs,
      Infers g w r.Holds q.event q.position q.item :=
    fun hr q hq ↦ (h q hq).mono fun _ _ ↦ hr.holds
  exact cuts_foldlM
    (fun q hq r hr ↦ cuts_push hlt (hr.invariant inv) (hinfers hr q hq))
    (fun q hq r hr ↦ reaches_push (Nat.zero_le _) (hinfers hr q hq))
    (fun q hq r hr ↦ reaches_push (Nat.zero_le _) (hinfers hr q hq))

theorem cuts_step (inv : Invariant g w limit run) {item : Item} (h : run.Holds position item) :
    Cuts g w limit limit' (run.step g limit position w[position]? item)
      (run.step g limit' position w[position]? item) := by
  rw [step_eq, step_eq]
  exact cuts_pushAll hlt inv fun _ hq ↦ (infers_of_mem_requests inv h hq).2

/-- There is room for all items under either limit, so neither walk ends before its set does. -/
theorem cuts_walk (inv : Invariant g w limit run) {room room' j : Nat}
    (hroom : limit ≤ j + room) (hle : room ≤ room') :
    Cuts g w limit limit' (walk g limit position w[position]? room j run)
      (walk g limit' position w[position]? room' j run) := by
  induction room generalizing room' j run with
  | zero =>
    have hend : (run.set position).items[j]? = none :=
      Array.getElem?_eq_none (Nat.le_trans (inv.size_le position) hroom)
    rw [walk_of_end hend, walk_of_end hend]
    exact cuts_ok run
  | succ room ih =>
    obtain ⟨room', rfl⟩ : ∃ k, room' = k + 1 := ⟨room' - 1, by omega⟩
    cases hitem : (run.set position).items[j]? with
    | none =>
      rw [walk_of_end hitem, walk_of_end hitem]
      exact cuts_ok run
    | some item =>
      have hholds : run.Holds position item := Array.mem_of_getElem? hitem
      have inv' := inv.of_le (Nat.le_of_lt hlt)
      simp only [walk, hitem]
      refine cuts_bind (cuts_step hlt inv hholds) (fun r hr ↦ ?_) (fun r hr ↦ ?_)
      · exact ih (((reaches_step inv hholds).of_ok hr).invariant inv) (by omega) (by omega)
      · have hstep := ((reaches_step inv' hholds).of_ok hr).invariant inv'
        exact (reaches_walk hstep room' (j + 1)).mono (Nat.zero_le _)

theorem cuts_visits (inv : Invariant g w limit run) {l : List (Option Char × Nat)}
    (hl : ∀ x ∈ l, x.1 = w[x.2]?) :
    Cuts g w limit limit' (l.foldlM (visit g limit) run) (l.foldlM (visit g limit') run) := by
  have inv' := inv.of_le (Nat.le_of_lt hlt)
  refine cuts_foldlM (fun x hx r hr ↦ ?_) (fun x hx r hr ↦ ?_) (fun x hx r hr ↦ ?_)
  all_goals
    obtain ⟨next, position⟩ := x
    obtain rfl : next = w[position]? := hl _ hx
  · have hstart : Grows g w limit 0 r _ := .started r (Nat.zero_le position)
    exact cuts_walk hlt (hstart.invariant (hr.invariant inv)) (Nat.le_add_left _ _)
      (Nat.le_of_lt hlt)
  · exact (reaches_visit (hr.invariant inv)).mono (Nat.zero_le _)
  · exact (reaches_visit (hr.invariant inv')).mono (Nat.zero_le _)

/-- Whole runs under two limits. -/
theorem cuts_overInput (g : Grammar) (w : List Char) :
    Cuts g w limit limit' (overInput g limit w) (overInput g limit' w) := by
  have hpositions : ∀ x ∈ (w.map some ++ [none]).zipIdx, x.1 = w[x.2]? := fun _ ↦
    eq_getElem?_of_mem_zipIdx
  refine cuts_bind ?_ (fun r hr ↦ ?_) (fun r hr ↦ ?_)
  · rw [seed_eq, seed_eq]
    exact cuts_pushAll hlt invariant_empty fun _ ↦ infers_of_mem_seeds
  · exact cuts_visits hlt (((reaches_seed _).of_ok hr).invariant invariant_empty) hpositions
  · exact reaches_visits (((reaches_seed _).of_ok hr).invariant invariant_empty)
      fun x hx ↦ ⟨Nat.zero_le _, hpositions x hx⟩

end Operations

/-! ## The whole run -/

theorem invariant_overInput (g : Grammar) (w : List Char) (limit : Nat) :
    Invariant g w limit (outcome (overInput g limit w)) :=
  (reaches_overInput g w limit).invariant invariant_empty

/-- The run under a limit that no set reaches. -/
def IsWhole (g : Grammar) (w : List Char) (run : Run) : Prop :=
  ∃ limit, overInput g limit w = .ok run ∧ ∀ i, (run.set i).size < limit

theorem exists_isWhole (hg : g.NonErasing) (w : List Char) : ∃ run, IsWhole g w run := by
  have inv := invariant_overInput g w (capacity g w.length + 1)
  cases hrun : overInput g (capacity g w.length + 1) w with
  | error h =>
    obtain ⟨i, -, hsize⟩ := stopsFull_overInput g w _ h hrun
    rw [hrun] at inv
    exact absurd hsize (Nat.not_le.2 (Nat.lt_succ_of_le (inv.size_le_capacity_length hg i)))
  | ok run =>
    rw [hrun] at inv
    exact ⟨run, _, hrun, fun i ↦ Nat.lt_succ_of_le (inv.size_le_capacity_length hg i)⟩

theorem IsWhole.size_sets {whole : Run} (h : IsWhole g w whole) :
    whole.sets.size = w.length + 1 := by
  obtain ⟨limit, hrun, -⟩ := h
  have inv := invariant_overInput g w limit
  rw [hrun, outcome_ok] at inv
  exact inv.size_sets

/-- A limit that leaves room for the whole run does not interfere. -/
theorem IsWhole.overInput_eq {whole : Run} (h : IsWhole g w whole)
    (hroom : ∀ i, (whole.set i).size ≤ limit) : overInput g limit w = .ok whole := by
  obtain ⟨limit', hwhole, -⟩ := h
  rcases Nat.lt_trichotomy limit limit' with hlt | rfl | hlt
  · have hcuts := cuts_overInput hlt g w
    cases hrun : overInput g limit w with
    | ok run => rw [← hwhole, hcuts.ok run hrun]
    | error h =>
      obtain ⟨i, -, -, hsize⟩ := hcuts.error h hrun
      rw [hwhole, outcome_ok] at hsize
      exact absurd hsize (Nat.not_lt.2 (hroom i))
  · exact hwhole
  · exact (cuts_overInput hlt g w).ok whole hwhole

/-- A limit that leaves no room stops the run on the way to the whole one. -/
theorem IsWhole.exists_halt {whole : Run} (h : IsWhole g w whole) {i : Nat}
    (hfull : limit < (whole.set i).size) :
    ∃ h k, overInput g limit w = .error h ∧ h.cause = .tooManyItems k limit ∧
      (h.run.set k).size = limit ∧ limit < (whole.set k).size ∧
      ∃ limit', Reaches g w limit' 0 h.run whole := by
  obtain ⟨limit', hwhole, hsize⟩ := h
  have hcuts := cuts_overInput (Nat.lt_trans hfull (hsize i)) g w
  have inv := invariant_overInput g w limit
  cases hrun : overInput g limit w with
  | ok run =>
    rw [hrun, outcome_ok, Except.ok.inj ((hcuts.ok run hrun).symm.trans hwhole)] at inv
    exact absurd (inv.size_le i) (Nat.not_le.2 hfull)
  | error h =>
    obtain ⟨k, hcause, hreach, hmore⟩ := hcuts.error h hrun
    obtain ⟨k', hcause', hle⟩ := stopsFull_overInput g w limit h hrun
    obtain rfl : k = k' := by
      rw [hcause] at hcause'
      cases hcause'
      rfl
    rw [hrun, outcome_error] at inv
    rw [hwhole, outcome_ok] at hreach hmore
    exact ⟨h, k, rfl, hcause, Nat.le_antisymm (inv.size_le k) hle, hmore, limit', hreach⟩

end Run

/-! ## Recognition under a limit -/

/-- A recognition under a limit that no set of its chart reaches. -/
structure Whole (g : Grammar) (w : List Char) (maxLength : Nat) (r : Recognition Chart)
    (c : Chart) : Prop where
  chart_eq : r.chart = some c
  unreached : ∃ limit, r = recognize g w ⟨maxLength, limit⟩ ∧ ∀ s ∈ c.sets, s.size < limit

/-- What a limit leaves of a recognition when it is hit at a position. -/
structure Truncated (limit position : Nat) (r : Recognition Chart) (c : Chart)
    (whole : Recognition Chart) (full : Chart) : Prop where
  verdict_eq : r.verdict = .exhausted (.tooManyItems position limit)
  chart_eq : r.chart = some c
  /-- The set of the position is full, and it holds more in the whole chart. -/
  full_at : ∃ s s', c.set? position = some s ∧ full.set? position = some s' ∧
    s.size = limit ∧ limit < s'.size
  sets_size : c.sets.size = full.sets.size
  size_le : ∀ s ∈ c.sets, s.size ≤ limit
  items : ∀ i s s', c.set? i = some s → full.set? i = some s' → s.items.toList <+: s'.items.toList
  events : ∃ before after, r.events = before ++ [.finished r.verdict] ∧
    whole.events = before ++ after ++ [.finished whole.verdict]

namespace Run

variable {run : Run}

theorem exists_set_eq {s : ItemSet} (h : s ∈ run.sets) : ∃ i, run.set i = s := by
  obtain ⟨i, hi, rfl⟩ := Array.mem_iff_getElem.1 h
  exact ⟨i, set_eq_getElem hi⟩

theorem set_mem_or_eq_default (run : Run) (i : Nat) :
    run.set i ∈ run.sets ∨ run.set i = default := by
  by_cases hi : i < run.sets.size
  · exact .inl (set_eq_getElem hi ▸ Array.getElem_mem hi)
  · exact .inr (set_of_size_le (Nat.le_of_not_lt hi))

/-- What is less than the sets are is less than what stands for a missing one. -/
theorem size_set_lt (hsize : ∀ s ∈ run.sets, s.size < limit) (hne : 0 < run.sets.size) (i : Nat) :
    (run.set i).size < limit := by
  rcases run.set_mem_or_eq_default i with hmem | hdefault
  · exact hsize _ hmem
  · rw [hdefault]
    exact Nat.zero_lt_of_lt (hsize _ (Array.getElem_mem hne))

theorem size_set_le (hsize : ∀ s ∈ run.sets, s.size ≤ limit) (i : Nat) :
    (run.set i).size ≤ limit := by
  rcases run.set_mem_or_eq_default i with hmem | hdefault
  · exact hsize _ hmem
  · rw [hdefault]
    exact Nat.zero_le _

end Run

section Recognition

variable {maxLength : Nat} {whole : Recognition Chart} {full : Chart}

/-- The recognition of a whole run. -/
theorem Run.IsWhole.recognition {run : Run} (h : Run.IsWhole g w run) (hlen : w.length ≤ maxLength) :
    Whole g w maxLength (.finish (.ofBool (Chart.mk g w run.sets).accepts) (some ⟨g, w, run.sets⟩)
      run.events.reverse) ⟨g, w, run.sets⟩ := by
  obtain ⟨limit, hrun, hsize⟩ := h
  refine ⟨rfl, limit, ?_, fun s hs ↦ ?_⟩
  · rw [recognize_of_ok hlen hrun]
  · obtain ⟨i, rfl⟩ := Run.exists_set_eq hs
    exact hsize i

/-- A recognition under a limit that no set reaches is that of a whole run. -/
theorem Whole.exists_isWhole (hlen : w.length ≤ maxLength) (h : Whole g w maxLength whole full) :
    ∃ run, Run.IsWhole g w run ∧ full = ⟨g, w, run.sets⟩ ∧
      whole = .finish (.ofBool full.accepts) (some full) run.events.reverse := by
  obtain ⟨hchart, limit, rfl, hsize⟩ := h
  have inv := Run.invariant_overInput g w limit
  have hne : 0 < (Run.outcome (Run.overInput g limit w)).sets.size :=
    inv.size_sets ▸ Nat.succ_pos _
  cases hrun : Run.overInput g limit w with
  | error e =>
    rw [recognize_of_error hlen hrun] at hchart
    obtain rfl : Chart.mk g w e.run.sets = full := Option.some.inj hchart
    rw [hrun, Run.outcome_error] at hne
    obtain ⟨i, -, hfull⟩ := Run.stopsFull_overInput g w limit e hrun
    exact absurd (Run.size_set_lt hsize hne i) (Nat.not_lt.2 hfull)
  | ok run =>
    have heq := recognize_of_ok hlen hrun
    rw [heq] at hchart
    obtain rfl : Chart.mk g w run.sets = full := Option.some.inj hchart
    rw [hrun, Run.outcome_ok] at hne
    exact ⟨run, ⟨limit, hrun, Run.size_set_lt hsize hne⟩, rfl, heq⟩

/-- What a run that was stopped leaves of the whole one. -/
theorem truncated_of_halt {run : Run} {h : Halt} {position : Nat}
    (inv : Run.Invariant g w limit h.run) (hcause : h.cause = .tooManyItems position limit)
    (hsize : (h.run.set position).size = limit) (hmore : limit < (run.set position).size)
    (hreach : Run.Reaches g w limit' 0 h.run run) (hsets : run.sets.size = h.run.sets.size)
    {v : Verdict} : Truncated limit position
      (.finish (.exhausted h.cause) (some ⟨g, w, h.run.sets⟩) h.run.events.reverse)
      ⟨g, w, h.run.sets⟩ (.finish v (some ⟨g, w, run.sets⟩) run.events.reverse) ⟨g, w, run.sets⟩ := by
  have hset : ∀ {r : Run} {i : Nat} {s : ItemSet},
      (Chart.mk g w r.sets).set? i = some s → r.set i = s := by
    intro r i s hs
    have hi : i < r.sets.size := (Array.getElem?_eq_some_iff.1 hs).1
    rw [Run.set?_eq_set hi] at hs
    exact Option.some.inj hs
  have hposition : position < run.sets.size := by
    by_contra hge
    rw [Run.set_of_size_le (Nat.le_of_not_lt hge)] at hmore
    exact Nat.not_lt_zero _ hmore
  constructor
  case verdict_eq => exact congrArg Verdict.exhausted hcause
  case chart_eq => rfl
  case full_at =>
    exact ⟨_, _, Run.set?_eq_set (hsets ▸ hposition), Run.set?_eq_set hposition, hsize, hmore⟩
  case sets_size => exact hsets.symm
  case size_le =>
    intro s hs
    obtain ⟨i, rfl⟩ := Run.exists_set_eq hs
    exact inv.size_le i
  case items =>
    intro i s s' hs hs'
    rw [← hset hs, ← hset hs']
    exact hreach.items_prefix i
  case events =>
    obtain ⟨later, hlater⟩ := hreach.events_suffix
    refine ⟨h.run.events.reverse, later.reverse, rfl, ?_⟩
    rw [← List.reverse_append, hlater]
    rfl

/-- The limit on items only truncates.  There is a recognition under a limit that no set reaches.
If a limit leaves room for all sets of its chart, recognition under that limit is the same in
everything; otherwise it is stopped at a set that is full, with a part of what the whole recognition
does.  So a verdict on the input stands under all larger limits, and even a chart that is
not finished accepts members only. -/
theorem limit_truncates (hg : g.WellFormed) (hlen : w.length ≤ maxLength) :
    (∃ whole full, Whole g w maxLength whole full) ∧
      ∀ whole full, Whole g w maxLength whole full → ∀ limit,
        ((∀ s ∈ full.sets, s.size ≤ limit) → recognize g w ⟨maxLength, limit⟩ = whole) ∧
        ((∃ s ∈ full.sets, limit < s.size) → ∃ position c,
          Truncated limit position (recognize g w ⟨maxLength, limit⟩) c whole full) ∧
        ((recognize g w ⟨maxLength, limit⟩).verdict = .accepted ∨
          (recognize g w ⟨maxLength, limit⟩).verdict = .rejected → ∀ limit' ≥ limit,
            (recognize g w ⟨maxLength, limit'⟩).verdict =
              (recognize g w ⟨maxLength, limit⟩).verdict) ∧
        ∀ c, (recognize g w ⟨maxLength, limit⟩).chart = some c → c.accepts = true → g.Member w := by
  constructor
  · obtain ⟨run, hrun⟩ := Run.exists_isWhole hg.nonErasing w
    exact ⟨_, _, hrun.recognition hlen⟩
  intro whole full h limit
  obtain ⟨run, hrun, rfl, rfl⟩ := h.exists_isWhole hlen
  refine ⟨fun hroom ↦ ?_, ?_, fun hverdict limit' hle ↦ ?_, fun c hc haccepts ↦ ?_⟩
  · exact recognize_of_ok hlen (hrun.overInput_eq (Run.size_set_le hroom))
  · rintro ⟨s, hs, hfull⟩
    obtain ⟨i, rfl⟩ := Run.exists_set_eq hs
    obtain ⟨h, k, hhalt, hcause, hsize, hmore, limit', hreach⟩ := hrun.exists_halt hfull
    have inv := Run.invariant_overInput g w limit
    rw [hhalt, Run.outcome_error] at inv
    rw [recognize_of_error hlen hhalt]
    exact ⟨k, _, truncated_of_halt inv hcause hsize hmore hreach
      (hrun.size_sets.trans inv.size_sets.symm)⟩
  · cases hsmall : Run.overInput g limit w with
    | error h =>
      rw [recognize_of_error hlen hsmall] at hverdict
      rcases hverdict with hverdict | hverdict <;> cases hverdict
    | ok run' =>
      have hlarge : Run.overInput g limit' w = .ok run' := by
        rcases Nat.eq_or_lt_of_le hle with rfl | hlt
        · exact hsmall
        · exact (Run.cuts_overInput hlt g w).ok run' hsmall
      rw [recognize_of_ok hlen hsmall, recognize_of_ok hlen hlarge]
  · rw [chart_eq_outcome hlen, Option.some.injEq] at hc
    subst hc
    exact (Run.invariant_overInput g w limit).member_of_accepts haccepts

/-- In `S → S S | a` no set for the input `a a a` has more than eight items.  Six of them are not
enough for the last set, though it accepts the input by then. -/
theorem limit_truncates_ambiguous :
    let g : Grammar := ⟨["S"], [⟨⟨0⟩, [.nonterm ⟨0⟩, .nonterm ⟨0⟩]⟩, ⟨⟨0⟩, [.term 'a']⟩], ⟨0⟩⟩
    let w := ['a', 'a', 'a']
    g.WellFormed ∧ w.length ≤ 3 ∧ ∃ full, Whole g w 3 (recognize g w ⟨3, 9⟩) full ∧
      recognize g w ⟨3, 8⟩ = recognize g w ⟨3, 9⟩ ∧
      ∃ c, Truncated 6 3 (recognize g w ⟨3, 6⟩) c (recognize g w ⟨3, 9⟩) full ∧
        c.accepts = true ∧ g.Member w := by
  intro g w
  have hg : g.WellFormed := by decide
  have hlen : w.length ≤ 3 := Nat.le_refl 3
  have hsizes : (recognize g w ⟨3, 9⟩).chart.map (·.sets.map (·.size)) = some #[2, 4, 6, 8] := by
    decide +kernel
  have hverdict : (recognize g w ⟨3, 6⟩).verdict = .exhausted (.tooManyItems 3 6) := by
    decide +kernel
  have haccepts : (recognize g w ⟨3, 6⟩).chart.map (·.accepts) = some true := by decide +kernel
  obtain ⟨full, hfull, hsizes⟩ := Option.map_eq_some_iff.1 hsizes
  obtain ⟨c, hc, haccepts⟩ := Option.map_eq_some_iff.1 haccepts
  have hsize : ∀ s ∈ full.sets, s.size ∈ [2, 4, 6, 8] := fun s hs ↦ by
    simpa [hsizes] using Array.mem_map_of_mem (f := ItemSet.size) hs
  have hwhole : Whole g w 3 (recognize g w ⟨3, 9⟩) full :=
    ⟨hfull, 9, rfl, fun s hs ↦ (by decide : ∀ n ∈ [2, 4, 6, 8], n < 9) _ (hsize s hs)⟩
  have htruncates := (limit_truncates hg hlen).2 _ _ hwhole
  have hroom : ∀ s ∈ full.sets, s.size ≤ 8 := fun s hs ↦
    (by decide : ∀ n ∈ [2, 4, 6, 8], n ≤ 8) _ (hsize s hs)
  obtain ⟨s, hs, hsize'⟩ : ∃ s ∈ full.sets, s.size = 8 :=
    Array.mem_map.1 (hsizes ▸ (by simp : 8 ∈ #[2, 4, 6, 8]))
  obtain ⟨position, c', hcut⟩ := (htruncates 6).2.1 ⟨s, hs, by omega⟩
  obtain rfl : position = 3 := by
    have heq := hcut.verdict_eq.symm.trans hverdict
    cases heq
    rfl
  obtain rfl : c' = c := Option.some.inj (hcut.chart_eq.symm.trans hc)
  exact ⟨hg, hlen, full, hwhole, (htruncates 8).1 hroom, c', hcut, haccepts,
    (htruncates 6).2.2.2 c' hc haccepts⟩

end Recognition

end ContextFree.Earley
