/-!
# Slices of a word

The part of a word between two positions.  Recognizers name parts of their input by positions, and
derivations by concatenation; the equations here lead from the one to the other.
-/

namespace ContextFree

/-- The characters from position `i` on and before position `j`. -/
def slice (w : List Char) (i j : Nat) : List Char := (w.take j).drop i

variable {w : List Char} {i j k : Nat}

theorem length_slice (w : List Char) (i : Nat) (h : j ≤ w.length) :
    (slice w i j).length = j - i := by
  simp [slice, h]

@[simp] theorem slice_self (w : List Char) (i : Nat) : slice w i i = [] := by
  simp [slice]

@[simp] theorem slice_zero_length (w : List Char) : slice w 0 w.length = w := by
  simp [slice]

/-- Two adjacent slices make one. -/
theorem slice_append_slice (w : List Char) (hij : i ≤ j) (hjk : j ≤ k) :
    slice w i j ++ slice w j k = slice w i k := by
  obtain ⟨d, rfl⟩ := Nat.exists_eq_add_of_le hij
  obtain ⟨e, rfl⟩ := Nat.exists_eq_add_of_le hjk
  simp only [slice, List.drop_take]
  rw [show i + d + e - i = d + e by omega, show i + d - i = d by omega,
    show i + d + e - (i + d) = e by omega, List.take_add, List.drop_drop]

/-- A slice of a slice. -/
theorem slice_slice (w : List Char) {m n : Nat} (h : n + i ≤ j) :
    slice (slice w i j) m n = slice w (m + i) (n + i) := by
  rw [slice, slice, slice, List.take_drop, List.drop_drop, List.take_take, Nat.add_comm i n,
    Nat.min_eq_left h, Nat.add_comm i m]

theorem getElem?_slice (w : List Char) (h : k + i < j) : (slice w i j)[k]? = w[k + i]? := by
  rw [slice, List.getElem?_drop, List.getElem?_take_of_lt (by omega), Nat.add_comm]

theorem slice_succ (hij : i ≤ j) {c : Char} (h : w[j]? = some c) :
    slice w i (j + 1) = slice w i j ++ [c] := by
  have hlast : slice w j (j + 1) = [c] := by
    obtain ⟨hlt, rfl⟩ := List.getElem?_eq_some_iff.1 h
    rw [slice, List.drop_take, Nat.add_sub_cancel_left, List.drop_eq_getElem_cons hlt,
      List.take_succ_cons, List.take_zero]
  rw [← hlast, slice_append_slice w hij (Nat.le_succ _)]

/-- The slice of one position. -/
theorem slice_singleton {c : Char} (h : w[i]? = some c) : slice w i (i + 1) = [c] := by
  simpa using slice_succ (Nat.le_refl i) h

/-- A slice that begins with a character begins where that character stands. -/
theorem eq_and_slice_of_cons {c : Char} {v : List Char} (hj : j ≤ w.length)
    (h : slice w i j = c :: v) : i < j ∧ w[i]? = some c ∧ slice w (i + 1) j = v := by
  have hlt : i < j := by
    have := congrArg List.length h
    rw [length_slice w i hj, List.length_cons] at this
    omega
  have hi : i < w.length := Nat.lt_of_lt_of_le hlt hj
  have hcons := slice_append_slice w (Nat.le_succ i) (Nat.succ_le_of_lt hlt)
  rw [slice_singleton (List.getElem?_eq_getElem hi), h, List.singleton_append] at hcons
  obtain ⟨rfl, rfl⟩ := List.cons.inj hcons
  exact ⟨hlt, List.getElem?_eq_getElem hi, rfl⟩

/-- A concatenation fills a slice just if its parts fill two adjacent slices. -/
theorem exists_split_of_slice_eq_append {u v : List Char} (hij : i ≤ j) (hj : j ≤ w.length)
    (h : slice w i j = u ++ v) :
    ∃ m, m = i + u.length ∧ i ≤ m ∧ m ≤ j ∧ slice w i m = u ∧ slice w m j = v := by
  have hlen := congrArg List.length h
  rw [length_slice w i hj, List.length_append] at hlen
  have hm : i + u.length ≤ j := by omega
  refine ⟨i + u.length, rfl, Nat.le_add_right _ _, hm, ?_⟩
  rw [← slice_append_slice w (Nat.le_add_right i _) hm] at h
  refine List.append_inj h ?_
  rw [length_slice w i (Nat.le_trans hm hj)]
  omega

end ContextFree
