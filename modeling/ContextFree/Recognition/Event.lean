import ContextFree.Cyk.Span
import ContextFree.Earley.Item
import ContextFree.Recognition.Verdict

/-!
# Events

A recognizer reports each new entry of its chart, never one that was there before, and its verdict
at the very end.
-/

namespace ContextFree

open Cyk Earley

/-- A report of a recognizer. -/
inductive Event where
  /-- The non-terminal now covers the span. -/
  | cellFilled (span : Span) (a : NonTerm)
  /-- The walk over the set of a position begins, and the set holds that many items by now. -/
  | positionStarted (position items : Nat)
  | seeded (item : Item)
  | predicted (position : Nat) (item : Item)
  /-- The item was moved over a character into the set of the position. -/
  | scanned (position : Nat) (item : Item)
  | completed (position : Nat) (item : Item)
  | finished (verdict : Verdict)
deriving DecidableEq, Repr

/-- The line that logs an event. -/
def Event.line (g : Grammar) : Event → String
  | .cellFilled span a => "cell " ++ span.text ++ " " ++ g.name a
  | .positionStarted position items => s!"position {position} ({items} items)"
  | .seeded item => "seed " ++ item.text g
  | .predicted position item => s!"predict [{position}] " ++ item.text g
  | .scanned position item => s!"scan [{position}] " ++ item.text g
  | .completed position item => s!"complete [{position}] " ++ item.text g
  | .finished verdict => "finished: " ++ verdict.message

end ContextFree
