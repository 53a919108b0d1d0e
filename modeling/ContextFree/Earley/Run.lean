import ContextFree.Earley.ItemSet
import ContextFree.Recognition.Event

/-!
# Runs over the positions

Sets are filled from left to right.  The set of a position is walked from its first item on, so the
items that the walk itself adds are walked too.  An item with the dot

* at the end is *completed*: every item that waits for its left-hand side where it began moves on;
* before a non-terminal has that non-terminal *predicted*: each of its productions begins here;
* before a terminal is *scanned*: if that is the next character, the item moves on into the next
  set.

An item that a set holds already is passed over.  A new item for a set that holds as many as the
limit allows stops the run, and what was found so far is kept.
-/

namespace ContextFree.Earley

/-- The sets of a run and its events, the latest first. -/
structure Run where
  sets : Array ItemSet
  events : List Event
deriving Repr

/-- A run that a limit has stopped. -/
structure Halt where
  cause : Exhausted
  run : Run
deriving Repr

namespace Run

/-- The run over an input of length `n` before anything is found. -/
def empty (n : Nat) : Run := ⟨((List.range (n + 1)).map ItemSet.empty).toArray, []⟩

/-- The set of a position. -/
def set (run : Run) (position : Nat) : ItemSet := run.sets.getD position default

/-- Puts an item into the set of a position and reports it, unless it is there. -/
def push (g : Grammar) (limit position : Nat) (event : Event) (item : Item) :
    Run → Except Halt Run
  | run@⟨sets, events⟩ =>
    if (run.set position).contains item then .ok run
    else if limit ≤ (run.set position).size then .error ⟨.tooManyItems position limit, run⟩
    else .ok ⟨sets.modify position (·.insert g item), event :: events⟩

/-- Begins the productions of the start symbol. -/
def seed (g : Grammar) (limit : Nat) (run : Run) : Except Halt Run :=
  (g.alternatives g.start).foldlM (fun run p ↦
    run.push g limit 0 (.seeded (.seed p 0)) (.seed p 0)) run

/-- Moves on the items that wait for what an item has completed. -/
def complete (g : Grammar) (limit position : Nat) (item : Item) (run : Run) : Except Halt Run :=
  ((run.set item.origin).waitingFor (item.lhs g)).foldlM (fun run w ↦
    run.push g limit position (.completed position w.advance) w.advance) run

/-- Begins the productions of a non-terminal. -/
def predict (g : Grammar) (limit position : Nat) (b : NonTerm) (run : Run) : Except Halt Run :=
  (g.alternatives b).foldlM (fun run p ↦
    run.push g limit position (.predicted position (.seed p position)) (.seed p position)) run

/-- Moves an item over a terminal, if that is the next character. -/
def scan (g : Grammar) (limit position : Nat) (next : Option Char) (item : Item) (c : Char)
    (run : Run) : Except Halt Run :=
  if next = some c then
    run.push g limit (position + 1) (.scanned (position + 1) item.advance) item.advance
  else .ok run

/-- Does what an item of the set of a position asks for. -/
def step (g : Grammar) (limit position : Nat) (next : Option Char) (item : Item) (run : Run) :
    Except Halt Run :=
  match item.next? g with
  | none => run.complete g limit position item
  | some (.nonterm b) => run.predict g limit position b
  | some (.term c) => run.scan g limit position next item c

/-- Walks over the set of a position from item number `j` on.  There is room for as many items as
the limit allows, so the walk comes to the end of the set before it runs out of room. -/
def walk (g : Grammar) (limit position : Nat) (next : Option Char) :
    (room j : Nat) → Run → Except Halt Run
  | 0, _, run => .ok run
  | room + 1, j, run =>
    match (run.set position).items[j]? with
    | none => .ok run
    | some item => do
      walk g limit position next room (j + 1) (← run.step g limit position next item)

/-- Fills the set of a position, given the character that stands there. -/
def visit (g : Grammar) (limit : Nat) (run : Run) : Option Char × Nat → Except Halt Run
  | (next, position) =>
    walk g limit position next limit 0
      { run with events := .positionStarted position (run.set position).size :: run.events }

/-- Fills the sets of all positions of an input, the one behind its end included. -/
def overInput (g : Grammar) (limit : Nat) (input : List Char) : Except Halt Run := do
  (input.map some ++ [none]).zipIdx.foldlM (visit g limit)
    (← (empty input.length).seed g limit)

end Run

end ContextFree.Earley
