/-!
# Lines

A text is split at its newlines.  A carriage return before a newline stays with its line: it is a
blank, so whoever trims the line drops it.
-/

namespace ContextFree.Text

/-- The parts of a text between its newlines; a text without one is a single line. -/
def lines : List Char → List (List Char)
  | [] => [[]]
  | c :: s =>
    if c = '\n' then [] :: lines s
    else match lines s with
      | [] => [[c]]
      | l :: ls => (c :: l) :: ls

/-- Every line of a list, each closed by a newline. -/
def unlines (ls : List (List Char)) : List Char := ls.flatMap (· ++ ['\n'])

@[simp] theorem lines_nil : lines [] = [[]] := rfl

@[simp] theorem lines_newline (s : List Char) : lines ('\n' :: s) = [] :: lines s := by
  simp [lines]

theorem lines_ne_nil (s : List Char) : lines s ≠ [] := by
  cases s with
  | nil => simp
  | cons c s =>
    rw [lines]
    split
    · simp
    · split <;> simp

@[simp] theorem unlines_nil : unlines [] = [] := rfl

@[simp] theorem unlines_cons (l : List Char) (ls : List (List Char)) :
    unlines (l :: ls) = l ++ '\n' :: unlines ls := by simp [unlines]

end ContextFree.Text
