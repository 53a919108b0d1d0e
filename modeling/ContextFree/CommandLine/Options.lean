import ContextFree.Grammar.Example
import ContextFree.Recognition.Limits
import ContextFree.Text.Number

/-!
# Options

A command line is a row of flags, some of them with a value, and at most one input among them.  A
value may look like a flag.  Of several values for one flag the last one counts.
-/

namespace ContextFree.CommandLine

/-- Why a command line cannot be read. -/
inductive UsageError where
  | missingValue (flag : String)
  | notANumber (flag value : String)
  | unknownFlag (flag : String)
  | extraInput
deriving DecidableEq, Repr

/-- The error in words. -/
def UsageError.message : UsageError → String
  | .missingValue flag => s!"missing value after `{flag}`"
  | .notANumber flag value => s!"`{flag}` expects a number, found `{value}`"
  | .unknownFlag flag => s!"unknown flag `{flag}`"
  | .extraInput => "more than one input given"

/-- What a command line asks for. -/
structure Options where
  input : Option String := none
  grammar : String := Grammar.exampleText
  limits : Limits := {}
  verbose : Bool := false
deriving DecidableEq, Repr

/-- The input that is looked for if none is given. -/
def defaultInput : String := "+baabcc"

/-- The characters to look for. -/
def Options.word (o : Options) : List Char := (o.input.getD defaultInput).toList

/-- The flags that take a value. -/
inductive ValueFlag where
  | maxLength
  | maxStates
  | grammar
deriving DecidableEq, Repr

/-- What an argument is in the place of a flag or an input. -/
inductive Argument where
  | withValue (flag : ValueFlag)
  | verbose
  | unknown
  | input
deriving DecidableEq, Repr

/-- Known flags are told by their names; what else begins with two dashes is an unknown flag. -/
def Argument.ofString (arg : String) : Argument :=
  if arg = "--max-length" then .withValue .maxLength
  else if arg = "--max-states" then .withValue .maxStates
  else if arg = "--grammar" then .withValue .grammar
  else if arg = "--verbose" ∨ arg = "-v" then .verbose
  else if ['-', '-'].isPrefixOf arg.toList then .unknown
  else .input

/-- The number that a flag is given. -/
def numberFor (flag value : String) : Except UsageError Nat :=
  match Text.unsigned? value.toList with
  | some n => .ok n
  | none => .error (.notANumber flag value)

namespace Options

/-- Sets what a flag is for to a value.  The name under which the flag was given is for the
error. -/
def setValue (o : Options) (name value : String) : ValueFlag → Except UsageError Options
  | .maxLength => do
    return { o with limits := { o.limits with maxLength := ← numberFor name value } }
  | .maxStates => do
    return { o with limits := { o.limits with maxStates := ← numberFor name value } }
  | .grammar => return { o with grammar := value }

/-- Reads arguments one after the other. -/
def read (o : Options) : List String → Except UsageError Options
  | [] => .ok o
  | arg :: args =>
    match Argument.ofString arg with
    | .verbose => read { o with verbose := true } args
    | .unknown => .error (.unknownFlag arg)
    | .input =>
      if o.input.isSome then .error .extraInput else read { o with input := some arg } args
    | .withValue flag =>
      match args with
      | [] => .error (.missingValue arg)
      | value :: args => do read (← o.setValue arg value flag) args

/-- The options of a command line. -/
def ofArguments (args : List String) : Except UsageError Options := read {} args

end Options

end ContextFree.CommandLine
