/-!
# Verdicts

What a recognizer answers: the input is accepted or rejected, or a limit was hit and nothing is
known, or the chart could not be built.
-/

namespace ContextFree

/-- A limit that was hit, which says nothing about membership. -/
inductive Exhausted where
  | inputTooLong (length limit : Nat)
  | tooManyItems (position limit : Nat)
deriving DecidableEq, Repr

/-- The limit in words. -/
def Exhausted.message : Exhausted → String
  | .inputTooLong length limit => s!"input of length {length} exceeds the limit of {limit}"
  | .tooManyItems position limit => s!"item set {position} would exceed the limit of {limit} items"

/-- Why there is no room for a chart. -/
inductive Fault where
  | chartTooLarge (length : Nat)
  | allocation (cells : Nat)
deriving DecidableEq, Repr

/-- The fault in words. -/
def Fault.message : Fault → String
  | .chartTooLarge length => s!"chart for an input of length {length} overflows the address space"
  | .allocation cells => s!"could not allocate a chart of {cells} cells"

/-- The answer of a recognizer. -/
inductive Verdict where
  | accepted
  | rejected
  | exhausted (e : Exhausted)
  | fault (f : Fault)
deriving DecidableEq, Repr

namespace Verdict

/-- The verdict in words. -/
def message : Verdict → String
  | .accepted => "accepted"
  | .rejected => "rejected"
  | .exhausted e => "resource exhausted: " ++ e.message
  | .fault f => "construction fault: " ++ f.message

/-- The limit that was hit. -/
def exhausted? : Verdict → Option Exhausted
  | .exhausted e => some e
  | _ => none

/-- The verdict on an input that was looked at to its end. -/
def ofBool (b : Bool) : Verdict := if b then .accepted else .rejected

@[simp] theorem ofBool_eq_accepted {b : Bool} : ofBool b = .accepted ↔ b = true := by
  cases b <;> simp [ofBool]

@[simp] theorem ofBool_eq_rejected {b : Bool} : ofBool b = .rejected ↔ ¬b = true := by
  cases b <;> simp [ofBool]

theorem ofBool_ne_exhausted (b : Bool) (e : Exhausted) : ofBool b ≠ .exhausted e := by
  cases b <;> exact nofun

end Verdict

end ContextFree
