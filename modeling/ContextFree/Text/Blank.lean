/-!
# Blank characters

White space is the Unicode property `White_Space`.  This file tests for it, trims it off both ends
of a text, and splits a text into its fields, the maximal runs without a blank.
-/

namespace ContextFree.Text

/-- The code points of the property `White_Space`, as inclusive ranges in ascending order. -/
def blankRanges : List (Nat × Nat) :=
  [(0x0009, 0x000D), (0x0020, 0x0020), (0x0085, 0x0085), (0x00A0, 0x00A0), (0x1680, 0x1680),
    (0x2000, 0x200A), (0x2028, 0x2029), (0x202F, 0x202F), (0x205F, 0x205F), (0x3000, 0x3000)]

/-- White space. -/
def isBlank (c : Char) : Bool :=
  blankRanges.any fun (low, high) ↦ low ≤ c.toNat && c.toNat ≤ high

/-- Without the leading blanks. -/
def trimStart (s : List Char) : List Char := s.dropWhile isBlank

/-- Without the trailing blanks. -/
def trimEnd (s : List Char) : List Char := (s.reverse.dropWhile isBlank).reverse

/-- Without the blanks at either end. -/
def trim (s : List Char) : List Char := trimEnd (trimStart s)

/-- What `dropWhile` leaves is no longer than what it was given. -/
theorem length_dropWhile_le {α : Type _} (p : α → Bool) (s : List α) :
    (s.dropWhile p).length ≤ s.length :=
  (List.dropWhile_suffix p).length_le

/-- The maximal runs of characters that are not blank. -/
def fields : List Char → List (List Char)
  | [] => []
  | c :: s =>
    if isBlank c then fields s
    else (c :: s.takeWhile (!isBlank ·)) :: fields (s.dropWhile (!isBlank ·))
termination_by s => s.length
decreasing_by
  · simp
  · exact Nat.lt_succ_of_le (length_dropWhile_le _ _)

@[simp] theorem fields_nil : fields [] = [] := by rw [fields]

/-- A leading blank belongs to no field. -/
theorem fields_cons_of_isBlank {c : Char} (h : isBlank c) (s : List Char) :
    fields (c :: s) = fields s := by rw [fields, if_pos h]

/-- A character that is not blank opens a field, which runs up to the next blank. -/
theorem fields_cons_of_not_isBlank {c : Char} (h : ¬isBlank c) (s : List Char) :
    fields (c :: s) =
      (c :: s.takeWhile (!isBlank ·)) :: fields (s.dropWhile (!isBlank ·)) := by
  rw [fields, if_neg h]

end ContextFree.Text
