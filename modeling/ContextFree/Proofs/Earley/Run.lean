import ContextFree.Proofs.Earley.Deduction
import Mathlib.Logic.Relation

/-!
# What a run does

A run changes its sets in one way only: an item that a rule infers from the items there goes to the
end of a set that has room and does not hold it.  `Grows` says so, and the lemmas on `push`, `step`,
`walk` and `overInput` say that a run is a sequence of such changes, whether it comes to its end or
a limit stops it.

Everything that such a change preserves holds throughout a run.  `Invariant` collects what is needed
later: the indexes of a set agree with its items, each of which is deduced, and no set exceeds the
limit.
-/

namespace ContextFree.Earley

variable {g : Grammar} {w : List Char} {limit : Nat}

/-! ## Coherent sets -/

/-- The two indexes of the set of a position say what its items say, and no item is there twice. -/
structure ItemSet.Coherent (g : Grammar) (position : Nat) (s : ItemSet) : Prop where
  places : s.byOrigin.size = position + 1
  contains_iff : ∀ item, s.contains item = true ↔ item ∈ s.items
  waitingFor_eq : ∀ a, s.waitingFor a = s.items.toList.filter (·.awaited? g = some a)
  nodup : s.items.toList.Nodup

namespace ItemSet

@[simp] theorem items_empty (position : Nat) : (empty position).items = #[] := rfl

@[simp] theorem items_default : (default : ItemSet).items = #[] := rfl

theorem coherent_empty (position : Nat) : (empty position).Coherent g position where
  places := by simp [empty]
  contains_iff := by simp
  waitingFor_eq := by simp
  nodup := by simp

/-- An item that began at or before the position has a place in the set. -/
theorem Coherent.origin_lt {position : Nat} {s : ItemSet} (h : s.Coherent g position) {item : Item}
    (hle : item.origin ≤ position) : item.origin < s.byOrigin.size :=
  h.places ▸ Nat.lt_succ_of_le hle

theorem Coherent.insert {position : Nat} {s : ItemSet} (h : s.Coherent g position) {item : Item}
    (hle : item.origin ≤ position) (hnew : s.contains item = false) :
    (s.insert g item).Coherent g position where
  places := by simpa [ItemSet.insert] using h.places
  contains_iff item' := by
    rw [contains_insert (h.origin_lt hle), items_insert, Array.mem_push,
      Bool.or_eq_true, decide_eq_true_eq, h.contains_iff, or_comm]
  waitingFor_eq a := by
    rw [waitingFor_insert, h.waitingFor_eq, items_insert, Array.toList_push, List.filter_append]
    congr 1
    by_cases ha : item.awaited? g = some a <;> simp [ha]
  nodup := by
    have hnotMem : item ∉ s.items.toList := fun hmem ↦ by
      rw [← Array.mem_def, ← h.contains_iff, hnew] at hmem
      cases hmem
    rw [items_insert, Array.toList_push, List.nodup_append]
    refine ⟨h.nodup, by simp, fun a ha b hb hab ↦ ?_⟩
    rw [List.mem_singleton] at hb
    exact hnotMem (hb ▸ hab ▸ ha)

end ItemSet

namespace Run

/-! ## Adding an item -/

/-- The item is in the set of the position. -/
def Holds (run : Run) (position : Nat) (item : Item) : Prop := item ∈ (run.set position).items

/-- A position within the input has its set in the chart. -/
theorem set?_eq_set {run : Run} {i : Nat} (h : i < run.sets.size) :
    (Chart.mk g w run.sets).set? i = some (run.set i) := by
  simp [Chart.set?, set, Array.getD_eq_getD_getElem?, h]

theorem set_eq_getElem {run : Run} {i : Nat} (h : i < run.sets.size) : run.set i = run.sets[i] := by
  simp [set, Array.getD_eq_getD_getElem?, h]

/-- Beyond the sets there are no items. -/
theorem set_of_size_le {run : Run} {i : Nat} (h : run.sets.size ≤ i) : run.set i = default := by
  simp [set, Array.getD_eq_getD_getElem?, h]

/-- Puts an item at the end of the set of a position and reports it. -/
def add (g : Grammar) (position : Nat) (event : Event) (item : Item) (run : Run) : Run :=
  ⟨run.sets.modify position (·.insert g item), event :: run.events⟩

theorem push_eq (g : Grammar) (limit position : Nat) (event : Event) (item : Item) (run : Run) :
    run.push g limit position event item =
      if (run.set position).contains item then .ok run
      else if limit ≤ (run.set position).size then .error ⟨.tooManyItems position limit, run⟩
      else .ok (run.add g position event item) := rfl

theorem set_add (run : Run) (position i : Nat) (event : Event) (item : Item) :
    (run.add g position event item).set i =
      if i = position ∧ i < run.sets.size then (run.set i).insert g item else run.set i := by
  simp only [set, add, Array.getD_eq_getD_getElem?, Array.getElem?_modify]
  by_cases heq : i = position
  · subst heq
    by_cases hlt : i < run.sets.size
    · simp [hlt]
    · simp [hlt]
  · simp [heq, Ne.symm heq]

/-! ## Growing -/

/-- One change of a run at a position or behind it: a walk begins, or an inferred item is added. -/
inductive Grows (g : Grammar) (w : List Char) (limit position : Nat) : Run → Run → Prop where
  | started (run : Run) {i : Nat} (hi : position ≤ i) :
      Grows g w limit position run
        { run with events := .positionStarted i (run.set i).size :: run.events }
  | added {run : Run} {event : Event} {i : Nat} {item : Item} (hi : position ≤ i)
      (h : Infers g w run.Holds event i item) (hnew : (run.set i).contains item = false)
      (hroom : (run.set i).size < limit) :
      Grows g w limit position run (run.add g i event item)

/-- Any number of changes at a position or behind it. -/
def Reaches (g : Grammar) (w : List Char) (limit position : Nat) : Run → Run → Prop :=
  Relation.ReflTransGen (Grows g w limit position)

/-- What growing preserves holds at the end of a run that reaches it. -/
theorem Reaches.preserves {position : Nat} {P : Run → Prop}
    (hP : ∀ run run', Grows g w limit position run run' → P run → P run') {run run' : Run}
    (h : Reaches g w limit position run run') (hrun : P run) : P run' := by
  induction h with
  | refl => exact hrun
  | tail _ hgrows ih => exact hP _ _ hgrows ih

/-- What is true of the sets of a run over `w` at all times. -/
structure Invariant (g : Grammar) (w : List Char) (limit : Nat) (run : Run) : Prop where
  size_sets : run.sets.size = w.length + 1
  coherent : ∀ i ≤ w.length, (run.set i).Coherent g i
  deduces : ∀ i item, run.Holds i item → Deduces g w i item
  size_le : ∀ i, (run.set i).size ≤ limit

/-- Each position of the input, and the one behind its end, has a set. -/
theorem Invariant.lt_size_sets {run : Run} (inv : Invariant g w limit run) {i : Nat}
    (hi : i ≤ w.length) : i < run.sets.size := inv.size_sets ▸ Nat.lt_succ_of_le hi

theorem Invariant.deduces_of_infers {run : Run} (inv : Invariant g w limit run) {event : Event}
    {i : Nat} {item : Item} (h : Infers g w run.Holds event i item) : Deduces g w i item :=
  Deduces.closed _ _ _ (h.mono inv.deduces)

theorem set_empty (n i : Nat) :
    (empty n).set i = if i ≤ n then .empty i else default := by
  simp only [set, empty, Array.getD_eq_getD_getElem?, List.getElem?_toArray, List.getElem?_map]
  by_cases hi : i ≤ n
  · rw [List.getElem?_range (Nat.lt_succ_of_le hi), if_pos hi]
    rfl
  · have hlen : (List.range (n + 1)).length ≤ i := by
      rw [List.length_range]
      exact Nat.lt_of_not_le hi
    rw [List.getElem?_eq_none hlen, if_neg hi]
    rfl

@[simp] theorem items_set_empty (n i : Nat) : ((empty n).set i).items = #[] := by
  rw [set_empty]
  split <;> simp

theorem invariant_empty : Invariant g w limit (empty w.length) where
  size_sets := by simp [empty]
  coherent i hi := by
    rw [set_empty, if_pos hi]
    exact ItemSet.coherent_empty i
  deduces i item h := by simp [Holds] at h
  size_le i := by simp [ItemSet.size]

section Grows

variable {position : Nat} {run run' : Run}

theorem Grows.mono {position' : Nat} (hle : position' ≤ position)
    (h : Grows g w limit position run run') : Grows g w limit position' run run' := by
  cases h with
  | started hi => exact .started _ (Nat.le_trans hle hi)
  | added hi h hnew hroom => exact .added (Nat.le_trans hle hi) h hnew hroom

/-- Growing puts items at the end of sets and nowhere else. -/
theorem Grows.items_prefix (h : Grows g w limit position run run') (i : Nat) :
    (run.set i).items.toList <+: (run'.set i).items.toList := by
  cases h with
  | started => exact List.prefix_rfl
  | added =>
    rw [set_add]
    split
    · simp
    · exact List.prefix_rfl

/-- Growing at a position changes no set before it. -/
theorem Grows.set_eq (h : Grows g w limit position run run') {i : Nat} (hi : i < position) :
    run'.set i = run.set i := by
  cases h with
  | started => rfl
  | added hle =>
    rw [set_add, if_neg]
    rintro ⟨rfl, -⟩
    exact Nat.not_le.2 hi hle

theorem Grows.invariant (h : Grows g w limit position run run')
    (inv : Invariant g w limit run) : Invariant g w limit run' := by
  cases h with
  | started => exact ⟨inv.size_sets, inv.coherent, inv.deduces, inv.size_le⟩
  | @added event i item _ hinfers hnew hroom =>
    have hitem := inv.deduces_of_infers hinfers
    refine ⟨by simp [add, inv.size_sets], fun j hj ↦ ?_, fun j item' h ↦ ?_, fun j ↦ ?_⟩
    · rw [set_add]
      split
      case isTrue heq =>
        obtain ⟨rfl, -⟩ := heq
        exact (inv.coherent j hj).insert hitem.reads.origin_le hnew
      case isFalse => exact inv.coherent j hj
    · rw [Holds, set_add] at h
      split at h
      case isTrue heq =>
        obtain ⟨rfl, -⟩ := heq
        rw [ItemSet.items_insert, Array.mem_push] at h
        rcases h with h | rfl
        · exact inv.deduces j item' h
        · exact hitem
      case isFalse => exact inv.deduces j item' h
    · rw [set_add]
      split
      case isTrue heq =>
        obtain ⟨rfl, -⟩ := heq
        rw [ItemSet.size_insert]
        exact hroom
      case isFalse => exact inv.size_le j

end Grows

namespace Reaches

variable {position : Nat} {run run' : Run}

theorem mono {position' : Nat} (hle : position' ≤ position)
    (h : Reaches g w limit position run run') : Reaches g w limit position' run run' :=
  h.preserves (P := Reaches g w limit position' run)
    (fun _ _ hgrows hr ↦ Relation.ReflTransGen.tail hr (hgrows.mono hle)) .refl

theorem items_prefix (h : Reaches g w limit position run run') (i : Nat) :
    (run.set i).items.toList <+: (run'.set i).items.toList :=
  h.preserves (P := fun r ↦ (run.set i).items.toList <+: (r.set i).items.toList)
    (fun _ _ hgrows hpre ↦ hpre.trans (hgrows.items_prefix i)) List.prefix_rfl

theorem holds (h : Reaches g w limit position run run') {i : Nat} {item : Item}
    (hitem : run.Holds i item) : run'.Holds i item := by
  rw [Holds, Array.mem_def] at hitem ⊢
  exact (h.items_prefix i).subset hitem

theorem set_eq (h : Reaches g w limit position run run') {i : Nat} (hi : i < position) :
    run'.set i = run.set i :=
  h.preserves (P := fun r ↦ r.set i = run.set i)
    (fun _ _ hgrows heq ↦ (hgrows.set_eq hi).trans heq) rfl

theorem invariant (h : Reaches g w limit position run run') (inv : Invariant g w limit run) :
    Invariant g w limit run' :=
  h.preserves (fun _ _ hgrows ↦ hgrows.invariant) inv

end Reaches

/-! ## Requests -/

/-- An item to be put into the set of a position, and the event that reports it. -/
structure Request where
  event : Event
  position : Nat
  item : Item

/-- Pushes what is requested, in order. -/
def pushAll (g : Grammar) (limit : Nat) (qs : List Request) (run : Run) : Except Halt Run :=
  qs.foldlM (fun run q ↦ run.push g limit q.position q.event q.item) run

/-- The beginnings of the productions of the start symbol. -/
def seeds (g : Grammar) : List Request :=
  (g.alternatives g.start).map fun p ↦ ⟨.seeded (.seed p 0), 0, .seed p 0⟩

/-- What an item of the set of a position asks for. -/
def requests (g : Grammar) (position : Nat) (next : Option Char) (item : Item) (run : Run) :
    List Request :=
  match item.next? g with
  | none => ((run.set item.origin).waitingFor (item.lhs g)).map fun w ↦
      ⟨.completed position w.advance, position, w.advance⟩
  | some (.nonterm b) => (g.alternatives b).map fun p ↦
      ⟨.predicted position (.seed p position), position, .seed p position⟩
  | some (.term c) =>
    if next = some c then [⟨.scanned (position + 1) item.advance, position + 1, item.advance⟩]
    else []

theorem seed_eq (g : Grammar) (limit : Nat) (run : Run) :
    run.seed g limit = run.pushAll g limit (seeds g) := by
  rw [seed, pushAll, seeds, List.foldlM_map]

/-- A step pushes what its item asks for. -/
theorem step_eq (g : Grammar) (limit position : Nat) (next : Option Char) (item : Item)
    (run : Run) :
    run.step g limit position next item =
      run.pushAll g limit (run.requests g position next item) := by
  rw [step, requests]
  cases item.next? g with
  | none => rw [complete, pushAll, List.foldlM_map]
  | some s =>
    cases s with
    | nonterm b => simp only [predict, pushAll, List.foldlM_map]
    | term c =>
      by_cases hc : next = some c
      · simp [scan, pushAll, hc]
      · simp only [scan, if_neg hc]
        rfl

theorem infers_of_mem_seeds {In : Nat → Item → Prop} {q : Request} (hq : q ∈ seeds g) :
    Infers g w In q.event q.position q.item := by
  obtain ⟨p, hp, rfl⟩ := List.mem_map.1 hq
  exact .seeded hp

/-! ## Operations only grow a run -/

/-- The run that an operation leaves behind, whether it ended or was stopped. -/
def outcome : Except Halt Run → Run
  | .ok run => run
  | .error h => h.run

@[simp] theorem outcome_ok (run : Run) : outcome (.ok run) = run := rfl

@[simp] theorem outcome_error (h : Halt) : outcome (.error h) = h.run := rfl

section Operations

variable {position : Nat} {run : Run}

theorem Reaches.of_ok {x : Except Halt Run} {run' : Run}
    (hx : Reaches g w limit position run (outcome x)) (h : x = .ok run') :
    Reaches g w limit position run run' := by
  rw [h] at hx
  exact hx

theorem reaches_bind {x : Except Halt Run} {f : Run → Except Halt Run}
    (hx : Reaches g w limit position run (outcome x))
    (hf : ∀ run', x = .ok run' → Reaches g w limit position run' (outcome (f run'))) :
    Reaches g w limit position run (outcome (x >>= f)) := by
  cases x with
  | error h => exact hx
  | ok run' => exact Relation.ReflTransGen.trans hx (hf run' rfl)

theorem reaches_foldlM {α : Type} {f : Run → α → Except Halt Run} {l : List α}
    (hf : ∀ a ∈ l, ∀ run', Reaches g w limit position run run' →
      Reaches g w limit position run' (outcome (f run' a))) :
    Reaches g w limit position run (outcome (l.foldlM f run)) := by
  induction l generalizing run with
  | nil => exact .refl
  | cons a l ih =>
    rw [List.foldlM_cons]
    have hhead := hf a (.head _) run .refl
    refine reaches_bind hhead fun run' hrun' ↦ ih fun b hb run'' hrun'' ↦ ?_
    exact hf b (.tail _ hb) run'' (Relation.ReflTransGen.trans (hhead.of_ok hrun') hrun'')

theorem reaches_push {event : Event} {i : Nat} {item : Item} (hi : position ≤ i)
    (h : Infers g w run.Holds event i item) :
    Reaches g w limit position run (outcome (run.push g limit i event item)) := by
  rw [push_eq]
  split
  case isTrue => exact .refl
  case isFalse hnew =>
    split
    case isTrue => exact .refl
    case isFalse hroom =>
      exact .single (.added hi h (Bool.eq_false_iff.2 hnew) (Nat.lt_of_not_le hroom))

/-- Pushing what rules infer, one after the other. -/
theorem reaches_pushAll {qs : List Request}
    (h : ∀ q ∈ qs, position ≤ q.position ∧ Infers g w run.Holds q.event q.position q.item) :
    Reaches g w limit position run (outcome (run.pushAll g limit qs)) :=
  reaches_foldlM fun q hq _ hr ↦ reaches_push (h q hq).1 ((h q hq).2.mono fun _ _ ↦ hr.holds)

theorem reaches_seed (run : Run) : Reaches g w limit 0 run (outcome (run.seed g limit)) := by
  rw [seed_eq]
  exact reaches_pushAll fun q hq ↦ ⟨Nat.zero_le _, infers_of_mem_seeds hq⟩

/-- The items that wait for a non-terminal in the set of a position. -/
theorem Invariant.mem_waitingFor (inv : Invariant g w limit run) {i : Nat} (hi : i ≤ w.length)
    {a : NonTerm} {waiting : Item} :
    waiting ∈ (run.set i).waitingFor a ↔
      run.Holds i waiting ∧ waiting.next? g = some (.nonterm a) := by
  rw [(inv.coherent i hi).waitingFor_eq, List.mem_filter, decide_eq_true_eq,
    Item.awaited?_eq_some_iff, Holds, Array.mem_def]

theorem Invariant.reads (inv : Invariant g w limit run) {i : Nat} {item : Item}
    (h : run.Holds i item) : item.Reads g w i := (inv.deduces i item h).reads

/-- What an item asks for is inferred, and not behind its own position. -/
theorem infers_of_mem_requests (inv : Invariant g w limit run) {item : Item}
    (h : run.Holds position item) {q : Request}
    (hq : q ∈ run.requests g position w[position]? item) :
    position ≤ q.position ∧ Infers g w run.Holds q.event q.position q.item := by
  rw [requests] at hq
  split at hq
  case h_1 hnext =>
    obtain ⟨waiting, hwaiting, rfl⟩ := List.mem_map.1 hq
    have horigin := Nat.le_trans (inv.reads h).origin_le (inv.reads h).position_le
    obtain ⟨hw, hawaited⟩ := (inv.mem_waitingFor horigin).1 hwaiting
    exact ⟨Nat.le_refl _, .completed h hnext hw hawaited⟩
  case h_2 b hnext =>
    obtain ⟨p, hp, rfl⟩ := List.mem_map.1 hq
    exact ⟨Nat.le_refl _, .predicted h hnext hp⟩
  case h_3 c hnext =>
    split at hq
    case isTrue hc =>
      obtain rfl := List.mem_singleton.1 hq
      exact ⟨Nat.le_succ _, .scanned h hnext hc⟩
    case isFalse => cases hq

/-- Doing what an item asks for adds inferred items only. -/
theorem reaches_step (inv : Invariant g w limit run) {item : Item} (h : run.Holds position item) :
    Reaches g w limit position run (outcome (run.step g limit position w[position]? item)) := by
  rw [step_eq]
  exact reaches_pushAll fun _ ↦ infers_of_mem_requests inv h

/-- At the end of the set a walk ends, whatever room there is. -/
theorem walk_of_end {next : Option Char} {room j : Nat}
    (hend : (run.set position).items[j]? = none) :
    walk g limit position next room j run = .ok run := by
  cases room with
  | zero => rfl
  | succ room => simp only [walk, hend]

theorem reaches_walk (inv : Invariant g w limit run) (room j : Nat) :
    Reaches g w limit position run
      (outcome (walk g limit position w[position]? room j run)) := by
  induction room generalizing j run with
  | zero => exact .refl
  | succ room ih =>
    rw [walk]
    split
    case h_1 => exact .refl
    case h_2 item hitem =>
      have hstep := reaches_step inv (Array.mem_of_getElem? hitem)
      exact reaches_bind hstep fun run' hrun' ↦ ih ((hstep.of_ok hrun').invariant inv) (j + 1)

theorem reaches_visit (inv : Invariant g w limit run) :
    Reaches g w limit position run (outcome (run.visit g limit (w[position]?, position))) :=
  have hstart : Grows g w limit position run _ := .started run (Nat.le_refl position)
  .head hstart (reaches_walk (hstart.invariant inv) limit 0)

end Operations

/-- The positions of an input, each with the character that stands there. -/
theorem eq_getElem?_of_mem_zipIdx {next : Option Char} {position : Nat}
    (h : (next, position) ∈ (w.map some ++ [none]).zipIdx) : next = w[position]? := by
  rw [List.mem_zipIdx_iff_getElem?, List.getElem?_append] at h
  split at h
  · rw [List.getElem?_map, Option.map_eq_some_iff] at h
    obtain ⟨c, hc, rfl⟩ := h
    exact hc.symm
  · rename_i hlt
    simp only [List.length_map] at hlt h
    have hnone : w[position]? = none := List.getElem?_eq_none (Nat.le_of_not_lt hlt)
    rw [hnone]
    exact (List.mem_singleton.1 (List.mem_of_getElem? h))

/-- Visits at a position and behind it. -/
theorem reaches_visits {run : Run} {position : Nat} (inv : Invariant g w limit run)
    {l : List (Option Char × Nat)} (hl : ∀ x ∈ l, position ≤ x.2 ∧ x.1 = w[x.2]?) :
    Reaches g w limit position run (outcome (l.foldlM (visit g limit) run)) := by
  refine reaches_foldlM fun (next, i) hmem run' hrun' ↦ ?_
  obtain ⟨hi, hnext⟩ := hl _ hmem
  obtain rfl : next = w[i]? := hnext
  exact (reaches_visit (hrun'.invariant inv)).mono hi

/-- A run over an input, ended or stopped, only ever grew. -/
theorem reaches_overInput (g : Grammar) (w : List Char) (limit : Nat) :
    Reaches g w limit 0 (empty w.length) (outcome (overInput g limit w)) := by
  refine reaches_bind (reaches_seed _) fun run hrun ↦ ?_
  have inv : Invariant g w limit run := ((reaches_seed _).of_ok hrun).invariant invariant_empty
  exact reaches_visits inv fun _ hx ↦ ⟨Nat.zero_le _, eq_getElem?_of_mem_zipIdx hx⟩

/-! ## Stopping -/

/-- If the operation was stopped, that was because of a set that is full. -/
def StopsFull (limit : Nat) (x : Except Halt Run) : Prop :=
  ∀ h, x = .error h → ∃ i, h.cause = .tooManyItems i limit ∧ limit ≤ (h.run.set i).size

theorem stopsFull_ok (limit : Nat) (run : Run) : StopsFull limit (.ok run) := fun _ h ↦ nomatch h

theorem stopsFull_bind {x : Except Halt Run} {f : Run → Except Halt Run}
    (hx : StopsFull limit x) (hf : ∀ run, StopsFull limit (f run)) :
    StopsFull limit (x >>= f) := by
  cases x with
  | error e => exact hx
  | ok run => exact hf run

theorem stopsFull_foldlM {α : Type} {f : Run → α → Except Halt Run}
    (hf : ∀ run a, StopsFull limit (f run a)) (l : List α) (run : Run) :
    StopsFull limit (l.foldlM f run) := by
  induction l generalizing run with
  | nil => exact stopsFull_ok limit run
  | cons a l ih =>
    rw [List.foldlM_cons]
    exact stopsFull_bind (hf run a) ih

theorem stopsFull_push (i : Nat) (event : Event) (item : Item) (run : Run) :
    StopsFull limit (run.push g limit i event item) := by
  rw [push_eq]
  split
  case isTrue => exact stopsFull_ok limit run
  case isFalse =>
    split
    case isTrue hfull =>
      rintro h ⟨⟩
      exact ⟨i, rfl, hfull⟩
    case isFalse => exact stopsFull_ok limit _

theorem stopsFull_pushAll (qs : List Request) (run : Run) :
    StopsFull limit (run.pushAll g limit qs) :=
  stopsFull_foldlM (fun run q ↦ stopsFull_push q.position q.event q.item run) qs run

theorem stopsFull_walk (i : Nat) (next : Option Char) (room j : Nat) (run : Run) :
    StopsFull limit (walk g limit i next room j run) := by
  induction room generalizing j run with
  | zero => exact stopsFull_ok limit run
  | succ room ih =>
    rw [walk]
    split
    case h_1 => exact stopsFull_ok limit run
    case h_2 item _ =>
      refine stopsFull_bind ?_ (ih (j + 1))
      rw [step_eq]
      exact stopsFull_pushAll _ run

theorem stopsFull_overInput (g : Grammar) (w : List Char) (limit : Nat) :
    StopsFull limit (overInput g limit w) := by
  refine stopsFull_bind ?_ fun run ↦ stopsFull_foldlM (fun _ _ ↦ stopsFull_walk _ _ _ _ _) _ run
  rw [seed_eq]
  exact stopsFull_pushAll _ _

end Run

end ContextFree.Earley
