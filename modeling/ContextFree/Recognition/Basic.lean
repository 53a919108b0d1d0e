import ContextFree.Recognition.Event
import ContextFree.Recognition.Limits

/-!
# Results of recognizers

A recognizer always gives a verdict and the events that led to it.  It gives a chart too, unless it
never began one.
-/

namespace ContextFree

/-- What a recognizer hands back. -/
structure Recognition (Chart : Type) where
  verdict : Verdict
  chart : Option Chart
  /-- In the order in which they happened; the last one reports the verdict. -/
  events : List Event
deriving Repr

namespace Recognition

variable {Chart : Type}

/-- Closes the events of a run with its verdict. -/
def finish (verdict : Verdict) (chart : Option Chart) (events : List Event) : Recognition Chart :=
  ⟨verdict, chart, events ++ [.finished verdict]⟩

/-- The input was accepted. -/
def Accepted (r : Recognition Chart) : Prop := r.verdict = .accepted

instance (r : Recognition Chart) : Decidable r.Accepted := inferInstanceAs (Decidable (_ = _))

/-- The lines that log the events. -/
def log (g : Grammar) (r : Recognition Chart) : List String := r.events.map (·.line g)

/-- The text of the chart, or `nil` without one. -/
def chartText (text : Chart → String) (r : Recognition Chart) : String :=
  match r.chart with
  | some c => text c
  | none => "nil"

end Recognition

end ContextFree
