import ContextFree.CommandLine.Report

/-!
# The command
-/

open ContextFree CommandLine in
/-- Runs the command line and prints what it leaves behind. -/
def main (args : List String) : IO UInt32 := do
  let outcome := run args
  IO.print outcome.stdout
  IO.eprint outcome.stderr
  return outcome.code.toUInt32
