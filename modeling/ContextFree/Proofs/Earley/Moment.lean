import ContextFree.Proofs.Earley.Run

/-!
# Moments of a run

A run in small steps.  At any moment there are requests that are still pending, those of the item
that was taken last, or of the start symbol at first.  While there are, the next of them is pushed;
then the walk takes the next item of its set, and at the end of the set it turns to the next
position.  A moment from which no move leads on is the end of the run, or the push that a limit does
not allow.

Nothing counts the moves here.  That the walk of `Run.walk` counts items up to the limit does not
matter: `performs_overInput` finds the run among the moments, to its end.
-/

namespace ContextFree

/-- How many positions are started when an event is reported, itself included. -/
def Event.stage : Event → Nat
  | .positionStarted i _ | .predicted i _ | .completed i _ => i + 1
  | .scanned i _ => i
  | .seeded _ | .cellFilled .. | .finished _ => 0

namespace Earley

open Run

/-- What a run has come to. -/
structure Moment where
  run : Run
  /-- How many positions are started; the last of them is walked over. -/
  started : Nat
  /-- How many items the walk has taken from its set. -/
  place : Nat
  pending : List Request

/-- One move over an input under a limit. -/
inductive Moves (g : Grammar) (w : List Char) (limit : Nat) : Moment → Moment → Prop where
  /-- Pushes what is requested next. -/
  | push {run run' : Run} {started place : Nat} {q : Request} {qs : List Request}
      (h : run.push g limit q.position q.event q.item = .ok run') :
      Moves g w limit ⟨run, started, place, q :: qs⟩ ⟨run', started, place, qs⟩
  /-- Takes the next item of the set. -/
  | take {run : Run} {i place : Nat} {item : Item} (h : (run.set i).items[place]? = some item) :
      Moves g w limit ⟨run, i + 1, place, []⟩
        ⟨run, i + 1, place + 1, run.requests g i w[i]? item⟩
  /-- Turns to the next position at the end of the set. -/
  | turn {run : Run} {i place : Nat} (hi : i ≤ w.length)
      (hend : ∀ j, i = j + 1 → (run.set j).size ≤ place) :
      Moves g w limit ⟨run, i, place, []⟩
        ⟨{ run with events := .positionStarted i (run.set i).size :: run.events }, i + 1, 0, []⟩

/-- Any number of moves. -/
def Proceeds (g : Grammar) (w : List Char) (limit : Nat) : Moment → Moment → Prop :=
  Relation.ReflTransGen (Moves g w limit)

namespace Moment

/-- The beginning of a run. -/
def start (g : Grammar) (w : List Char) : Moment := ⟨.empty w.length, 0, 0, seeds g⟩

/-- The run comes to this moment. -/
def Reachable (g : Grammar) (w : List Char) (limit : Nat) (m : Moment) : Prop :=
  Proceeds g w limit (start g w) m

/-- No move leads on. -/
def IsLast (g : Grammar) (w : List Char) (limit : Nat) (m : Moment) : Prop :=
  ∀ m', ¬Moves g w limit m m'

end Moment

variable {g : Grammar} {w : List Char} {limit : Nat} {m m' : Moment}

/-- At most one move leads on. -/
theorem Moves.unique {m₁ m₂ : Moment} (h₁ : Moves g w limit m m₁) (h₂ : Moves g w limit m m₂) :
    m₁ = m₂ := by
  cases h₁ with
  | push h =>
    cases h₂ with
    | push h' => rw [Except.ok.inj (h.symm.trans h')]
  | take h =>
    cases h₂ with
    | take h' => rw [Option.some.inj (h.symm.trans h')]
    | turn _ hend =>
      exact absurd (Array.getElem?_eq_some_iff.1 h).1 (Nat.not_lt.2 (hend _ rfl))
  | turn _ hend =>
    cases h₂ with
    | take h' => exact absurd (Array.getElem?_eq_some_iff.1 h').1 (Nat.not_lt.2 (hend _ rfl))
    | turn => rfl

/-! ## What is true at all moments -/

theorem Infers.stage_le {In : Nat → Item → Prop} {e : Event} {i : Nat} {item : Item}
    (h : Infers g w In e i item) : e.stage ≤ i + 1 := by
  cases h with
  | seeded => exact Nat.zero_le _
  | predicted | completed => exact Nat.le_refl _
  | scanned => exact Nat.le_succ _

theorem stage_of_mem_seeds {q : Request} (hq : q ∈ seeds g) : q.event.stage = 0 := by
  obtain ⟨p, -, rfl⟩ := List.mem_map.1 hq
  rfl

theorem stage_of_mem_requests {position : Nat} {next : Option Char} {item : Item} {run : Run}
    {q : Request} (hq : q ∈ run.requests g position next item) :
    q.event.stage = position + 1 := by
  rw [requests] at hq
  split at hq
  case h_1 =>
    obtain ⟨waiting, -, rfl⟩ := List.mem_map.1 hq
    rfl
  case h_2 =>
    obtain ⟨p, -, rfl⟩ := List.mem_map.1 hq
    rfl
  case h_3 =>
    split at hq
    case isTrue =>
      obtain rfl := List.mem_singleton.1 hq
      rfl
    case isFalse => cases hq

/-- A push that is stopped leaves the run as it is. -/
theorem run_of_push_eq_error {run : Run} {position : Nat} {event : Event} {item : Item}
    {halt : Halt} (h : run.push g limit position event item = .error halt) : halt.run = run := by
  rw [push_eq] at h
  split at h
  case isTrue => cases h
  case isFalse =>
    split at h
    case isTrue =>
      cases h
      rfl
    case isFalse => cases h

/-- A push that is not stopped adds its item, or finds it there. -/
theorem eq_or_eq_add_of_push {run run' : Run} {position : Nat} {event : Event} {item : Item}
    (h : run.push g limit position event item = .ok run') :
    run' = run ∨ run' = run.add g position event item := by
  rw [push_eq] at h
  split at h
  case isTrue => exact .inl (Except.ok.inj h).symm
  case isFalse =>
    split at h
    case isTrue => cases h
    case isFalse => exact .inr (Except.ok.inj h).symm

namespace Moment

/-- What is true at all moments of a run. -/
structure Sound (g : Grammar) (w : List Char) (limit : Nat) (m : Moment) : Prop where
  reaches : Reaches g w limit 0 (.empty w.length) m.run
  infers : ∀ q ∈ m.pending, Infers g w m.run.Holds q.event q.position q.item
  stage_eq : ∀ q ∈ m.pending, q.event.stage = m.started
  started_le : m.started ≤ w.length + 1
  place_le : ∀ i, m.started = i + 1 → m.place ≤ (m.run.set i).size

theorem sound_start (g : Grammar) (w : List Char) (limit : Nat) : (start g w).Sound g w limit where
  reaches := .refl
  infers _ := infers_of_mem_seeds
  stage_eq _ := stage_of_mem_seeds
  started_le := Nat.zero_le _
  place_le _ h := absurd h (Nat.succ_ne_zero _).symm

theorem Sound.invariant (h : m.Sound g w limit) : Invariant g w limit m.run :=
  h.reaches.invariant invariant_empty

/-- A move grows the run at the position that is walked over, or behind it. -/
theorem Sound.reaches_of_moves (h : m.Sound g w limit) (hmoves : Moves g w limit m m') :
    Reaches g w limit (m.started - 1) m.run m'.run := by
  cases hmoves with
  | @push run run' started _ q _ hpush =>
    have hinfers := h.infers q (.head _)
    have hposition : started - 1 ≤ q.position := by
      have hle := hinfers.stage_le
      rw [h.stage_eq q (.head _)] at hle
      exact Nat.sub_le_of_le_add hle
    exact (reaches_push hposition hinfers).of_ok hpush
  | take => exact .refl
  | turn => exact .single (.started _ (Nat.sub_le _ _))

theorem Sound.moves (h : m.Sound g w limit) (hmoves : Moves g w limit m m') :
    m'.Sound g w limit := by
  have hgrows := h.reaches_of_moves hmoves
  have hreaches := h.reaches.trans (hgrows.mono (Nat.zero_le _))
  cases hmoves with
  | push =>
    refine ⟨hreaches, fun q hq ↦ (h.infers q (.tail _ hq)).mono fun _ _ ↦ hgrows.holds,
      fun q hq ↦ h.stage_eq q (.tail _ hq), h.started_le, fun i hi ↦ ?_⟩
    exact Nat.le_trans (h.place_le i hi) (hgrows.items_prefix i).length_le
  | take hitem =>
    refine ⟨hreaches, fun q hq ↦ ?_, fun q ↦ stage_of_mem_requests, h.started_le, fun j hj ↦ ?_⟩
    · exact (infers_of_mem_requests h.invariant (Array.mem_of_getElem? hitem) hq).2
    · obtain rfl := Nat.succ.inj hj
      exact (Array.getElem?_eq_some_iff.1 hitem).1
  | turn hi =>
    exact ⟨hreaches, nofun, nofun, Nat.succ_le_succ hi, fun _ _ ↦ Nat.zero_le _⟩

theorem Sound.proceeds (h : m.Sound g w limit) (hproceeds : Proceeds g w limit m m') :
    m'.Sound g w limit := by
  induction hproceeds with
  | refl => exact h
  | tail _ hmoves ih => exact ih.moves hmoves

theorem Reachable.sound (h : m.Reachable g w limit) : m.Sound g w limit :=
  (sound_start g w limit).proceeds h

theorem started_le_of_moves (h : Moves g w limit m m') : m.started ≤ m'.started := by
  cases h with
  | push | take => exact Nat.le_refl _
  | turn => exact Nat.le_succ _

/-- The moves from a moment on grow the run at the position that is walked over then, or behind
it. -/
theorem Sound.reaches_of_proceeds (h : m.Sound g w limit) (hproceeds : Proceeds g w limit m m') :
    Reaches g w limit (m.started - 1) m.run m'.run := by
  induction hproceeds using Relation.ReflTransGen.head_induction_on with
  | refl => exact .refl
  | head hmoves _ ih =>
    have hstarted := Nat.sub_le_sub_right (started_le_of_moves hmoves) 1
    exact (h.reaches_of_moves hmoves).trans ((ih (h.moves hmoves)).mono hstarted)

/-! ## The run among the moments -/

/-- All pushed, and all taken from the set of the position that was started last. -/
structure Idle (started : Nat) (m : Moment) : Prop where
  started_eq : m.started = started
  pending_eq : m.pending = []
  size_le : ∀ i, started = i + 1 → (m.run.set i).size ≤ m.place

/-- The moves from a moment on lead to one that is described by `Done`, and what an operation gives
is the run there; or they lead to the push that stops the operation. -/
inductive Performs (g : Grammar) (w : List Char) (limit : Nat) (m : Moment)
    (Done : Moment → Prop) : Except Halt Run → Prop where
  | ok {m' : Moment} (h : Proceeds g w limit m m') (hdone : Done m') :
      Performs g w limit m Done (.ok m'.run)
  | error {run : Run} {started place : Nat} {q : Request} {qs : List Request} {halt : Halt}
      (h : Proceeds g w limit m ⟨run, started, place, q :: qs⟩)
      (hstop : run.push g limit q.position q.event q.item = .error halt) :
      Performs g w limit m Done (.error halt)

section Performs

variable {Done Done' : Moment → Prop}

theorem Performs.of_proceeds {x : Except Halt Run} (h : Proceeds g w limit m m')
    (hx : Performs g w limit m' Done x) : Performs g w limit m Done x := by
  cases hx with
  | ok h' hdone => exact .ok (h.trans h') hdone
  | error h' hstop => exact .error (h.trans h') hstop

theorem Performs.mono {x : Except Halt Run} (hx : Performs g w limit m Done x)
    (hdone : ∀ m', Done m' → Done' m') : Performs g w limit m Done' x := by
  cases hx with
  | ok h hm' => exact .ok h (hdone _ hm')
  | error h hstop => exact .error h hstop

theorem Performs.bind {x : Except Halt Run} {f : Run → Except Halt Run}
    (hx : Performs g w limit m Done x)
    (hf : ∀ m', Proceeds g w limit m m' → Done m' → Performs g w limit m' Done' (f m'.run)) :
    Performs g w limit m Done' (x >>= f) := by
  cases hx with
  | ok h hdone => exact (hf _ h hdone).of_proceeds h
  | error h hstop => exact .error h hstop

theorem performs_pushAll (qs : List Request) (run : Run) (started place : Nat) :
    Performs g w limit ⟨run, started, place, qs⟩ (∃ run', · = ⟨run', started, place, []⟩)
      (run.pushAll g limit qs) := by
  induction qs generalizing run with
  | nil => exact .ok .refl ⟨run, rfl⟩
  | cons q qs ih =>
    rw [pushAll, List.foldlM_cons]
    cases hpush : run.push g limit q.position q.event q.item with
    | error halt => exact .error .refl hpush
    | ok run' => exact (ih run').of_proceeds (.single (.push hpush))

theorem performs_step {run : Run} {i place : Nat} {item : Item}
    (h : (run.set i).items[place]? = some item) :
    Performs g w limit ⟨run, i + 1, place, []⟩ (∃ run', · = ⟨run', i + 1, place + 1, []⟩)
      (run.step g limit i w[i]? item) := by
  rw [step_eq]
  exact (performs_pushAll _ _ _ _).of_proceeds (.single (.take h))

/-- The room that a walk is given is enough: there are no more items than the limit allows. -/
theorem performs_walk {run : Run} {i j room : Nat} (hroom : limit ≤ j + room)
    (h : Sound g w limit ⟨run, i + 1, j, []⟩) :
    Performs g w limit ⟨run, i + 1, j, []⟩ (Idle (i + 1)) (walk g limit i w[i]? room j run) := by
  induction room generalizing run j with
  | zero =>
    refine .ok .refl ⟨rfl, rfl, fun i' hi' ↦ ?_⟩
    exact Nat.le_trans (h.invariant.size_le i') hroom
  | succ room ih =>
    rw [walk]
    split
    case h_1 hend =>
      refine .ok .refl ⟨rfl, rfl, fun i' hi' ↦ ?_⟩
      obtain rfl := Nat.succ.inj hi'
      exact Array.getElem?_eq_none_iff.1 hend
    case h_2 item hitem =>
      refine (performs_step hitem).bind fun m' hm' hdone ↦ ?_
      obtain ⟨run', rfl⟩ := hdone
      exact ih (by omega) (h.proceeds hm')

theorem performs_visit {i : Nat} (hi : i ≤ w.length) (h : m.Sound g w limit) (hidle : m.Idle i) :
    Performs g w limit m (Idle (i + 1)) (m.run.visit g limit (w[i]?, i)) := by
  obtain ⟨run, started, place, pending⟩ := m
  obtain ⟨rfl, rfl, hend⟩ := hidle
  have hturn : Moves g w limit ⟨run, started, place, []⟩ _ := .turn hi hend
  exact (performs_walk (Nat.le_add_left _ _) (h.moves hturn)).of_proceeds (.single hturn)

theorem performs_visits {l : List (Option Char)} {i : Nat} (h : m.Sound g w limit)
    (hl : ∀ x ∈ l.zipIdx i, x.1 = w[x.2]? ∧ x.2 ≤ w.length) (hidle : m.Idle i) :
    Performs g w limit m (Idle (i + l.length)) ((l.zipIdx i).foldlM (visit g limit) m.run) := by
  induction l generalizing m i with
  | nil => exact .ok .refl hidle
  | cons next l ih =>
    rw [List.zipIdx_cons, List.forall_mem_cons] at hl
    obtain ⟨⟨hnext, hi⟩, hl'⟩ := hl
    obtain rfl : next = w[i]? := hnext
    rw [List.zipIdx_cons, List.foldlM_cons, List.length_cons, Nat.add_comm l.length,
      ← Nat.add_assoc]
    exact (performs_visit hi h hidle).bind fun m' hm' hidle' ↦ ih (h.proceeds hm') hl' hidle'

/-- The moves from the beginning on perform the run over the input. -/
theorem performs_overInput (g : Grammar) (w : List Char) (limit : Nat) :
    Performs g w limit (start g w) (Idle (w.length + 1)) (overInput g limit w) := by
  have hseed : Performs g w limit (start g w) (Idle 0) ((empty w.length).seed g limit) := by
    rw [seed_eq]
    refine (performs_pushAll _ _ _ _).mono ?_
    rintro _ ⟨run, rfl⟩
    exact ⟨rfl, rfl, nofun⟩
  refine hseed.bind fun m hm hidle ↦ ?_
  have hmem : ∀ x ∈ (w.map some ++ [none]).zipIdx, x.1 = w[x.2]? ∧ x.2 ≤ w.length := by
    intro x hx
    have hlt := List.snd_lt_of_mem_zipIdx hx
    rw [List.length_append, List.length_map, List.length_singleton] at hlt
    exact ⟨eq_getElem?_of_mem_zipIdx hx, Nat.le_of_lt_succ hlt⟩
  simpa using performs_visits ((sound_start g w limit).proceeds hm) hmem hidle

end Performs

/-- With all positions walked over, no move leads on. -/
theorem Idle.isLast (h : m.Idle (w.length + 1)) : m.IsLast g w limit := by
  obtain ⟨run, started, place, pending⟩ := m
  obtain ⟨rfl, rfl, hend⟩ := h
  intro m' hmoves
  cases hmoves with
  | take hitem =>
    exact absurd (Array.getElem?_eq_some_iff.1 hitem).1 (Nat.not_lt.2 (hend _ rfl))
  | turn hi => exact absurd hi (Nat.not_succ_le_self _)

/-- The run that is handed back is the one of a last moment, and that is reached.  If the run was
not stopped, all positions are started by then. -/
theorem exists_isLast (g : Grammar) (w : List Char) (limit : Nat) :
    ∃ m, Reachable g w limit m ∧ m.IsLast g w limit ∧ m.run = outcome (overInput g limit w) ∧
      ∀ run, overInput g limit w = .ok run → m.started = w.length + 1 := by
  have hperforms := performs_overInput g w limit
  generalize overInput g limit w = x at hperforms
  cases hperforms with
  | ok h hidle => exact ⟨_, h, hidle.isLast, rfl, fun _ _ ↦ hidle.started_eq⟩
  | @error run started place q qs halt h hstop =>
    refine ⟨_, h, fun m' hmoves ↦ ?_, ?_, nofun⟩
    · cases hmoves with
      | push hpush => cases hstop.symm.trans hpush
    · exact (run_of_push_eq_error hstop).symm

/-- Every moment of a run leads to a last one, so that there is only one. -/
theorem Reachable.proceeds (h : m.Reachable g w limit) (hlast : m.IsLast g w limit)
    (h' : m'.Reachable g w limit) : Proceeds g w limit m' m := by
  have hunique : Relator.RightUnique (Moves g w limit) := fun _ _ _ h₁ h₂ ↦ h₁.unique h₂
  rcases h'.total_of_right_unique hunique h with hproceeds | hproceeds
  · exact hproceeds
  · rcases hproceeds.cases_head with rfl | ⟨m₁, hmoves, -⟩
    · exact .refl
    · exact absurd hmoves (hlast m₁)

end Moment

end Earley

end ContextFree
