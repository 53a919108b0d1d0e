import ContextFree.Proofs.Earley.Run
import ContextFree.Proofs.Guarded.Operations

/-!
# Left-to-right recognition, guarded

A run over an input, and the question whether its chart accepts, with guarded operations.  The places
that a run looks at are those of the items that it has found, and each of them is deduced: so its
production is one of the grammar's, its dot does not stand behind the production, and its origin and
its position lie within the input (`Item.Reads`).
-/

namespace ContextFree.Earley.Guarded

open ContextFree.Guarded Run

/-! ## Items -/

/-- The symbol after the dot, if there is one. -/
def next (g : Grammar) (item : Item) : Option (Option Symbol) := do
  return (← production g item.production).rhs[item.dot]?

/-- The left-hand side of the item's production. -/
def lhs (g : Grammar) (item : Item) : Option NonTerm := do
  return (← production g item.production).lhs

/-- The item with the dot moved over one symbol. -/
def advance (item : Item) : Option Item := do
  return { item with dot := ← add? item.dot 1 }

/-- The item says that the start symbol derives everything up to its position. -/
def isFinal (g : Grammar) (item : Item) : Option Bool :=
  if item.origin = 0 then do
    let p ← production g item.production
    return decide (p.rhs.length ≤ item.dot) && decide (p.lhs = g.start)
  else some false

/-! ## Sets -/

/-- The item of a number. -/
def item (s : ItemSet) (j : Nat) : Option Item := s.items[j]?

/-- The item is in the set. -/
def contains (s : ItemSet) (item : Item) : Option Bool := do
  return (← s.byOrigin[item.origin]?).contains item

/-- Puts an item at the end. -/
def insert (g : Grammar) (s : ItemSet) (item : Item) : Option ItemSet := do
  let byOrigin ← modify? s.byOrigin item.origin (item :: ·)
  match ← next g item with
  | some (.nonterm a) => return ⟨s.items.push item, byOrigin, (a, item) :: s.waiting⟩
  | _ => return ⟨s.items.push item, byOrigin, s.waiting⟩

/-- The items with the dot before a non-terminal, in order. -/
def waitingFor (g : Grammar) (a : NonTerm) (s : ItemSet) : Option (List Item) :=
  s.items.toList.filterM fun item ↦ do return decide ((← next g item) = some (.nonterm a))

/-! ## Runs -/

/-- The run over an input of length `n` before anything is found. -/
def empty (n : Nat) : Option Run := do
  return ⟨((List.range (← add? n 1)).map ItemSet.empty).toArray, []⟩

/-- The set of a position. -/
def set (run : Run) (position : Nat) : Option ItemSet := run.sets[position]?

/-- Puts an item into the set of a position and reports it, unless it is there. -/
def push (g : Grammar) (limit position : Nat) (event : Event) (item : Item) (run : Run) :
    ExceptT Halt Option Run := do
  let s ← set run position
  if ← contains s item then return run
  else if limit ≤ s.size then throw ⟨.tooManyItems position limit, run⟩
  else
    let s' ← insert g s item
    return ⟨← modify? run.sets position fun _ ↦ s', event :: run.events⟩

/-- Pushes what is requested, in order. -/
def pushAll (g : Grammar) (limit : Nat) (qs : List Request) (run : Run) :
    ExceptT Halt Option Run :=
  qs.foldlM (fun run q ↦ push g limit q.position q.event q.item run) run

/-- The beginnings of the productions of a non-terminal. -/
def seeds (g : Grammar) (position : Nat) (event : Item → Event) (a : NonTerm) : List Request :=
  (alternatives g a).map fun p ↦ ⟨event (.seed p position), position, .seed p position⟩

/-- What an item of the set of a position asks for. -/
def requests (g : Grammar) (w : List Char) (position : Nat) (item : Item) (run : Run) :
    Option (List Request) := do
  match ← next g item with
  | none =>
    (← waitingFor g (← lhs g item) (← set run item.origin)).mapM fun waiting ↦ do
      let item' ← advance waiting
      return ⟨.completed position item', position, item'⟩
  | some (.nonterm b) => return seeds g position (.predicted position) b
  | some (.term c) =>
    if w[position]? = some c then
      let position' ← add? position 1
      let item' ← advance item
      return [⟨.scanned position' item', position', item'⟩]
    else return []

/-- Does what an item of the set of a position asks for. -/
def step (g : Grammar) (w : List Char) (limit position : Nat) (item : Item) (run : Run) :
    ExceptT Halt Option Run := do
  pushAll g limit (← requests g w position item run) run

/-- Walks over the set of a position from item number `j` on, to its end. -/
def walk (g : Grammar) (w : List Char) (limit position : Nat) :
    (room j : Nat) → Run → ExceptT Halt Option Run
  | 0, j, run => do
    let s ← set run position
    (guard (s.size ≤ j) : Option Unit)
    return run
  | room + 1, j, run => do
    let s ← set run position
    if s.size ≤ j then return run
    else
      let run' ← step g w limit position (← item s j) run
      walk g w limit position room (← add? j 1) run'

/-- Fills the set of a position. -/
def visit (g : Grammar) (w : List Char) (limit : Nat) (run : Run) (position : Nat) :
    ExceptT Halt Option Run := do
  let s ← set run position
  walk g w limit position limit 0
    { run with events := .positionStarted position s.size :: run.events }

/-- Fills the sets of all positions of an input, the one behind its end included. -/
def overInput (g : Grammar) (limit : Nat) (w : List Char) : ExceptT Halt Option Run := do
  let run ← pushAll g limit (seeds g 0 .seeded g.start) (← empty w.length)
  (List.range run.sets.size).foldlM (visit g w limit) run

/-! ## Charts -/

/-- The input is not empty and the start symbol derives it. -/
def accepts (c : Chart) : Option Bool := do
  if c.input.isEmpty then return false
  else (← c.sets[c.length]?).items.toList.anyM (isFinal c.grammar)

/-- Looks for the input from left to right. -/
def recognize (g : Grammar) (w : List Char) (limits : Limits) : Option (Recognition Chart) :=
  match limits.exceededBy w.length with
  | some e => some (.finish (.exhausted e) none [])
  | none => do
    match ← (overInput g limits.maxStates w).run with
    | .error h =>
      return .finish (.exhausted h.cause) (some ⟨g, w, h.run.sets⟩) h.run.events.reverse
    | .ok run =>
      let c : Chart := ⟨g, w, run.sets⟩
      return .finish (.ofBool (← accepts c)) (some c) run.events.reverse

variable {g : Grammar} {w : List Char} {limit : Nat}

/-! ## Items and sets go without a mistake -/

section Item

variable {item : Item} {i : Nat}

theorem next_eq (h : item.production.index < g.productions.length) :
    next g item = some (item.next? g) := by
  rw [next, production_eq h]
  rfl

theorem lhs_eq (h : item.production.index < g.productions.length) :
    lhs g item = some (item.lhs g) := by
  rw [lhs, production_eq h]
  rfl

theorem isFinal_eq (h : item.production.index < g.productions.length) :
    isFinal g item = some (decide (Chart.IsFinal g item)) := by
  rw [isFinal, production_eq h]
  by_cases horigin : item.origin = 0 <;> simp [Chart.IsFinal, Item.IsComplete, Item.lhs, horigin]

/-- A dot before a symbol can be moved over it. -/
theorem advance_eq (hw : InMemory g w) (h : item.production.index < g.productions.length)
    {s : Symbol} (hnext : item.next? g = some s) : advance item = some item.advance := by
  have hdot : item.dot < (g.production item.production).rhs.length :=
    (List.getElem?_eq_some_iff.1 hnext).1
  have hlt := lt_size_of_lt (hw.rhs_lt _ (Grammar.production_mem_of_lt h))
  rw [advance, add?_eq_some (by omega)]
  rfl

variable {s : ItemSet} (hs : s.Coherent g i)

include hs

theorem contains_eq (h : item.Reads g w i) : contains s item = some (s.contains item) := by
  simp [contains, ItemSet.contains, hs.origin_lt h.origin_le]

theorem insert_eq (h : item.Reads g w i) : insert g s item = some (s.insert g item) := by
  rw [insert, modify?_eq_some (hs.origin_lt h.origin_le), next_eq h.production_lt,
    ItemSet.insert, Item.awaited?]
  cases item.next? g with
  | none => rfl
  | some s => cases s <;> rfl

theorem waitingFor_eq (h : ∀ item ∈ s.items, item.production.index < g.productions.length)
    (a : NonTerm) : waitingFor g a s = some (s.waitingFor a) := by
  rw [hs.waitingFor_eq]
  refine filterM_eq_some fun item hitem ↦ ?_
  rw [next_eq (h item (Array.mem_toList_iff.1 hitem))]
  simp [Item.awaited?_eq_some_iff]

end Item

/-! ## Operations on a run go without a mistake -/

/-- The guarded operation goes without a mistake, and it does what the other one does. -/
def Computes (x : ExceptT Halt Option Run) (y : Except Halt Run) : Prop := x.run = some y

theorem computes_ok (run : Run) : Computes (pure run) (.ok run) := rfl

theorem computes_bind {x : ExceptT Halt Option Run} {y : Except Halt Run}
    {f : Run → ExceptT Halt Option Run} {f' : Run → Except Halt Run} (h : Computes x y)
    (hf : ∀ run, y = .ok run → Computes (f run) (f' run)) : Computes (x >>= f) (y >>= f') := by
  rw [Computes, ExceptT.run_bind, h]
  cases y with
  | error e => rfl
  | ok run => exact hf run rfl

/-- What is asked of a run in between answers, and the rest of the operation goes on from there. -/
theorem computes_lift_bind {α : Type} {x : Option α} {a : α} {y : Except Halt Run}
    {f : α → ExceptT Halt Option Run} (hx : x = some a) (h : Computes (f a) y) :
    Computes (liftM x >>= f) y := by
  rw [hx]
  exact h

/-- A loop, each pass of which goes without a mistake as long as the run only grows. -/
theorem computes_foldlM {α : Type} {l : List α} {f : Run → α → ExceptT Halt Option Run}
    {f' : Run → α → Except Halt Run} {run : Run}
    (h : ∀ a ∈ l, ∀ run', Reaches g w limit 0 run run' →
      Computes (f run' a) (f' run' a) ∧ Reaches g w limit 0 run' (outcome (f' run' a))) :
    Computes (l.foldlM f run) (l.foldlM f' run) := by
  induction l generalizing run with
  | nil => exact computes_ok run
  | cons a l ih =>
    obtain ⟨hcomputes, hreaches⟩ := h a (.head _) run .refl
    rw [List.foldlM_cons, List.foldlM_cons]
    refine computes_bind hcomputes fun run' hrun' ↦ ih fun b hb run'' hrun'' ↦ ?_
    exact h b (.tail _ hb) run'' (Relation.ReflTransGen.trans (hreaches.of_ok hrun') hrun'')

section Run

variable {run : Run} (inv : Invariant g w limit run) {i : Nat}

include inv

theorem set_eq (hi : i ≤ w.length) : set run i = some (run.set i) := by
  have hlt := inv.lt_size_sets hi
  rw [set, Run.set_eq_getElem hlt, Array.getElem?_eq_getElem hlt]

theorem push_computes {item : Item} (h : item.Reads g w i) (event : Event) :
    Computes (push g limit i event item run) (run.push g limit i event item) := by
  have hi := h.position_le
  have hlt := inv.lt_size_sets hi
  have hs := inv.coherent i hi
  refine computes_lift_bind (set_eq inv hi) (computes_lift_bind (contains_eq hs h) ?_)
  rw [push_eq]
  split
  case isTrue => exact computes_ok run
  case isFalse =>
    split
    case isTrue => rfl
    case isFalse =>
      refine computes_lift_bind (insert_eq hs h) (computes_lift_bind ?_ (computes_ok _))
      rw [Run.set_eq_getElem hlt]
      exact modify?_const_eq_some hlt (·.insert g item)

/-- What the rules infer from a run can be pushed. -/
theorem pushAll_computes {qs : List Request}
    (h : ∀ q ∈ qs, Infers g w run.Holds q.event q.position q.item) :
    Computes (pushAll g limit qs run) (run.pushAll g limit qs) := by
  refine computes_foldlM fun q hq run' (hrun' : Reaches g w limit 0 run run') ↦ ⟨?_, ?_⟩
  · have hitem := inv.deduces_of_infers (h q hq)
    exact push_computes (hrun'.invariant inv) hitem.reads q.event
  · exact reaches_push (Nat.zero_le _) ((h q hq).mono fun _ _ ↦ hrun'.holds)

end Run

section WellFormed

variable (hg : g.WellFormed) (hw : InMemory g w) {run : Run} (inv : Invariant g w limit run)
  {i : Nat}

include hg in
theorem seeds_start_eq : seeds g 0 .seeded g.start = Run.seeds g := by
  rw [seeds, alternatives_eq hg]
  rfl

include hg hw inv

theorem requests_eq {item : Item} (h : run.Holds i item) :
    requests g w i item run = some (run.requests g i w[i]? item) := by
  have hreads := inv.reads h
  rw [requests, next_eq hreads.production_lt, Run.requests]
  cases hnext : item.next? g with
  | none =>
    have horigin := Nat.le_trans hreads.origin_le hreads.position_le
    have hwaiting := waitingFor_eq (inv.coherent _ horigin)
      (fun waiting hmem ↦ (inv.reads hmem).production_lt) (item.lhs g)
    simp only [Option.bind_eq_bind, Option.bind_some, lhs_eq hreads.production_lt,
      set_eq inv horigin, hwaiting]
    refine mapM_eq_some fun waiting hmem ↦ ?_
    obtain ⟨hheld, hawaited⟩ := (inv.mem_waitingFor horigin).1 hmem
    rw [advance_eq hw (inv.reads hheld).production_lt hawaited]
    rfl
  | some s =>
    cases s with
    | nonterm b =>
      simp only [Option.bind_eq_bind, Option.bind_some, seeds, alternatives_eq hg]
      rfl
    | term c =>
      simp only [Option.bind_eq_bind, Option.bind_some]
      split
      case isTrue hc =>
        have hi : i < w.length := (List.getElem?_eq_some_iff.1 hc).1
        have hlt := lt_size_of_lt hw.length_lt
        rw [add?_eq_some (by omega), advance_eq hw hreads.production_lt hnext]
        rfl
      case isFalse => rfl

theorem step_computes {item : Item} (h : run.Holds i item) :
    Computes (step g w limit i item run) (run.step g limit i w[i]? item) := by
  rw [step_eq]
  exact computes_lift_bind (requests_eq hg hw inv h)
    (pushAll_computes inv fun q hq ↦ (infers_of_mem_requests inv h hq).2)

/-- The induction is on the room that is left.  A walk that starts with room for as many items as
the limit allows is at the end of the set when it has no room. -/
theorem walk_computes (hlimit : limit < UInt64.size) (hi : i ≤ w.length) {room j : Nat}
    (hroom : limit ≤ room + j) :
    Computes (walk g w limit i room j run) (Run.walk g limit i w[i]? room j run) := by
  induction room generalizing j run with
  | zero =>
    have hend : (run.set i).size ≤ j := by
      have := inv.size_le i
      omega
    have hguard : (guard ((run.set i).size ≤ j) : Option Unit) = some () := if_pos hend
    exact computes_lift_bind (set_eq inv hi) (computes_lift_bind hguard (computes_ok run))
  | succ room ih =>
    refine computes_lift_bind (set_eq inv hi) ?_
    rw [Run.walk]
    cases hitem : (run.set i).items[j]? with
    | none =>
      have hend : (run.set i).size ≤ j := Array.getElem?_eq_none_iff.1 hitem
      rw [if_pos hend]
      exact computes_ok run
    | some item =>
      have hj : j < (run.set i).size := (Array.getElem?_eq_some_iff.1 hitem).1
      have hheld : run.Holds i item := Array.mem_of_getElem? hitem
      have hsize := inv.size_le i
      rw [if_neg (Nat.not_le.2 hj)]
      refine computes_lift_bind hitem (computes_bind (step_computes hg hw inv hheld)
        fun run' hrun' ↦ computes_lift_bind (add?_eq_some (by omega)) ?_)
      exact ih (((reaches_step inv hheld).of_ok hrun').invariant inv) (by omega)

theorem visit_computes (hlimit : limit < UInt64.size) (hi : i ≤ w.length) :
    Computes (visit g w limit run i) (run.visit g limit (w[i]?, i)) := by
  have hstart : Grows g w limit i run _ := .started run (Nat.le_refl i)
  exact computes_lift_bind (set_eq inv hi)
    (walk_computes hg hw (hstart.invariant inv) hlimit hi (Nat.le_refl limit))

end WellFormed

/-- A run over an input goes without a mistake. -/
theorem overInput_computes (hg : g.WellFormed) (hw : InMemory g w) (hlimit : limit < UInt64.size) :
    Computes (overInput g limit w) (Run.overInput g limit w) := by
  have hempty : empty w.length = some (Run.empty w.length) := by
    have hlt := lt_size_of_lt hw.length_lt
    rw [empty, add?_eq_some (by omega)]
    rfl
  have hseed : Computes (pushAll g limit (Run.seeds g) (Run.empty w.length))
      ((Run.empty w.length).seed g limit) := by
    rw [seed_eq]
    exact pushAll_computes invariant_empty fun _ ↦ infers_of_mem_seeds
  refine computes_lift_bind hempty ?_
  rw [seeds_start_eq hg, Run.overInput]
  refine computes_bind hseed fun run hrun ↦ ?_
  have inv : Invariant g w limit run := ((reaches_seed _).of_ok hrun).invariant invariant_empty
  have hcount : run.sets.size = (w.map some ++ [none]).length := by simp [inv.size_sets]
  rw [hcount, range_length_eq, List.foldlM_map]
  refine computes_foldlM fun (next, i) hmem run' (hrun' : Reaches g w limit 0 run run') ↦ ?_
  have hi : i < (w.map some ++ [none]).length := List.snd_lt_of_mem_zipIdx hmem
  obtain rfl : next = w[i]? := eq_getElem?_of_mem_zipIdx hmem
  have inv' := hrun'.invariant inv
  exact ⟨visit_computes hg hw inv' hlimit (by simpa [Nat.lt_succ_iff] using hi),
    (reaches_visit inv').mono (Nat.zero_le _)⟩

/-! ## Recognition goes without a mistake -/

theorem accepts_eq {run : Run} (inv : Invariant g w limit run) :
    accepts ⟨g, w, run.sets⟩ = some (Chart.mk g w run.sets).accepts := by
  have hset : (Chart.mk g w run.sets).set? w.length = some (run.set w.length) :=
    set_eq inv (Nat.le_refl _)
  have hany : (run.set w.length).items.toList.anyM (isFinal g) =
      some ((run.set w.length).items.toList.any (Chart.IsFinal g ·)) :=
    anyM_eq_some fun item hitem ↦
      isFinal_eq (inv.reads (Array.mem_toList_iff.1 hitem)).production_lt
  rw [accepts, Chart.accepts, Chart.length, hset]
  cases w.isEmpty with
  | true => rfl
  | false =>
    have hlt := inv.lt_size_sets (Nat.le_refl _)
    rw [Option.any_some, ← Array.any_toList, Bool.not_false, Bool.true_and, ← hany,
      Run.set_eq_getElem hlt]
    simp [hlt]

/-- Left-to-right recognition goes without a mistake, whether it comes to its end or a limit stops
it, and so does the question whether its chart accepts. -/
theorem recognize_eq (hg : g.WellFormed) {limits : Limits} (hw : InMemory g w)
    (hlimit : limits.maxStates < UInt64.size) :
    recognize g w limits = some (Earley.recognize g w limits) ∧
      ∀ c, (Earley.recognize g w limits).chart = some c → accepts c = some c.accepts := by
  have hrun := overInput_computes hg hw hlimit
  have inv := (reaches_overInput g w limits.maxStates).invariant invariant_empty
  rw [Computes] at hrun
  rw [recognize, Earley.recognize]
  cases limits.exceededBy w.length with
  | some e =>
    refine ⟨rfl, fun c hc ↦ ?_⟩
    cases hc
  | none =>
    simp only [hrun]
    cases h : Run.overInput g limits.maxStates w with
    | error halt =>
      rw [h] at inv
      refine ⟨rfl, fun c hc ↦ ?_⟩
      obtain rfl := Option.some.inj hc
      exact accepts_eq inv
    | ok run =>
      rw [h] at inv
      have haccepts := accepts_eq inv
      refine ⟨?_, fun c hc ↦ ?_⟩
      · simp only [outcome_ok] at haccepts
        simp only [Option.bind_eq_bind, Option.bind_some, haccepts]
        rfl
      · obtain rfl := Option.some.inj hc
        exact haccepts

end ContextFree.Earley.Guarded
