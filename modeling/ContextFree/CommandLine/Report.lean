import ContextFree.CommandLine.Options
import ContextFree.Cyk.Trace
import ContextFree.Earley.Chart
import ContextFree.Notation.Reader

/-!
# Reports

The command line reads a grammar and looks for the input in both ways, bottom-up and from left to
right.  It prints the chart and the verdict of each, and a derivation if there is one.  The exit
code is 0 if either accepts, 1 if neither does, and 2 if there is nothing to look for.
-/

namespace ContextFree.CommandLine

/-- What a run of the command line leaves behind. -/
structure Outcome where
  code : Nat
  stdout : String := ""
  stderr : String := ""
deriving DecidableEq, Repr

/-- How a command of that name is used. -/
def usage (program : String) : String :=
  "Usage: " ++ program ++ " [INPUT] [--max-length N] [--max-states N] [--grammar TEXT] [--verbose]"

/-- The logged events, each on an indented line. -/
def logText {Chart : Type} (g : Grammar) (r : Recognition Chart) : String :=
  String.join ((r.log g).map ("  " ++ · ++ "\n"))

/-- What is printed of bottom-up recognition. -/
def cykReport (verbose : Bool) (g : Grammar) (r : Recognition Cyk.Chart) : String :=
  (if verbose then logText g r else "")
    ++ (r.chart.map (·.text)).getD ""
    ++ "cyk: " ++ r.verdict.message ++ "\n"
    ++ if r.Accepted then (r.chart.map fun c ↦ Cyk.stepsText g c.derivation).getD "" else ""

/-- What is printed of left-to-right recognition. -/
def earleyReport (verbose : Bool) (g : Grammar) (r : Recognition Earley.Chart) : String :=
  (if verbose then logText g r else "")
    ++ (r.chart.map (·.text)).getD ""
    ++ "earley: " ++ r.verdict.message ++ "\n"

/-- Looks for a word in both ways. -/
def recognizeBoth (o : Options) (g : Grammar) (memory : Memory) : Outcome :=
  let byCyk := Cyk.recognize g o.word o.limits memory
  let byEarley := Earley.recognize g o.word o.limits
  { code := if byCyk.Accepted ∨ byEarley.Accepted then 0 else 1
    stdout := "input: " ++ String.ofList o.word ++ "\n" ++ cykReport o.verbose g byCyk
      ++ earleyReport o.verbose g byEarley }

/-- Runs the command line, under the name by which it was called. -/
def run (args : List String) (program : String := "chartparse") (memory : Memory := .standard) :
    Outcome :=
  match Options.ofArguments args with
  | .error e => { code := 2, stderr := e.message ++ "\n" ++ usage program ++ "\n" }
  | .ok o =>
    match Notation.read o.grammar with
    | .error e => { code := 2, stderr := "bad grammar: " ++ e.message ++ "\n" }
    | .ok g => recognizeBoth o g memory

end ContextFree.CommandLine
