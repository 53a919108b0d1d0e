/-!
# Fresh names

Fresh non-terminals are called `X1`, `X2`, …, without the names that are already in use.
-/

namespace ContextFree

/-- The name of the fresh non-terminal of number `k`. -/
def freshName (k : Nat) : String := "X" ++ toString k

/-- The least number from `k` on whose name is not in use.  A name that is in use is struck off the
list, so the search ends with the list. -/
def freshNumber (used : List String) (k : Nat) : Nat :=
  if h : freshName k ∈ used then freshNumber (used.erase (freshName k)) (k + 1) else k
termination_by used.length
decreasing_by
  have := List.length_pos_of_mem h
  rw [List.length_erase_of_mem h]
  omega

theorem freshNumber_of_notMem {used : List String} {k : Nat} (h : freshName k ∉ used) :
    freshNumber used k = k := by rw [freshNumber, dif_neg h]

end ContextFree
