import ContextFree.Cyk.Table

/-!
# The entries of a table

What recording does, said without addresses.  Cells and words are only a layout: of two different
pairs of a span and a non-terminal, recording one never changes what is known of the other, and the
last reason recorded for a pair is the one that is kept.

There is a table just if its cells and words can be counted and the machine has memory for them
(`allocate_eq`).
-/

namespace ContextFree.Cyk

namespace Table

/-! ## Bits -/

/-- A mask has one bit. -/
theorem testBit_mask (a : NonTerm) (i : Nat) :
    (mask a).toNat.testBit i = decide (i = a.index % 64) := by
  have hlt : a.index % 64 < 64 := Nat.mod_lt _ (by decide)
  have hword : (UInt64.ofNat (a.index % 64)).toNat % 64 = a.index % 64 := by
    rw [UInt64.toNat_ofNat', Nat.mod_mod_of_dvd _ (by decide), Nat.mod_mod]
  rw [mask, UInt64.toNat_shiftLeft, hword, Nat.testBit_mod_two_pow, UInt64.toNat_one,
    Nat.testBit_shiftLeft, Bool.eq_iff_iff]
  simp only [Bool.and_eq_true, decide_eq_true_eq, Nat.testBit_one_eq_true_iff_self_eq_zero]
  omega

/-- A word meets the mask of a non-terminal just if it has the bit. -/
theorem and_mask_bne_zero (w : UInt64) (a : NonTerm) :
    (w &&& mask a != 0) = w.toNat.testBit (a.index % 64) := by
  rw [Bool.eq_iff_iff, bne_iff_ne, ne_eq, ← UInt64.toNat_inj, UInt64.toNat_and,
    UInt64.toNat_zero]
  constructor
  · intro h
    refine Decidable.by_contra fun h' ↦ h (Nat.eq_of_testBit_eq fun i ↦ ?_)
    by_cases hi : i = a.index % 64
    · simp_all [testBit_mask]
    · simp [testBit_mask, hi]
  · intro h h'
    simpa [testBit_mask, h] using congrArg (Nat.testBit · (a.index % 64)) h'

/-! ## Addresses -/

/-- Place `j` of block `i` comes before the end of `m` blocks of `n` places. -/
theorem place_lt {m n i j : Nat} (hi : i < m) (hj : j < n) : i * n + j < m * n :=
  calc
    i * n + j < i * n + n := Nat.add_lt_add_left hj _
    _ = (i + 1) * n := (Nat.succ_mul _ _).symm
    _ ≤ m * n := Nat.mul_le_mul_right _ hi

/-- An address tells the block and the place in the block. -/
theorem eq_of_place_eq {n i j i' j' : Nat} (hj : j < n) (hj' : j' < n)
    (heq : i * n + j = i' * n + j') : i = i' ∧ j = j' := by
  have hmod : j = j' := by
    simpa [Nat.mod_eq_of_lt hj, Nat.mod_eq_of_lt hj'] using congrArg (· % n) heq
  subst hmod
  exact ⟨Nat.eq_of_mul_eq_mul_right (Nat.zero_lt_of_lt hj) (Nat.add_right_cancel heq), rfl⟩

theorem cell_lt {width : Nat} {s : Span} (h : s.Within width) : cell width s < width * width :=
  place_lt (Nat.lt_of_le_of_lt h.1 h.2) h.2

theorem cell_inj {width : Nat} {s s' : Span} (h : s.Within width) (h' : s'.Within width)
    (heq : cell width s = cell width s') : s = s' := by
  obtain ⟨first, last⟩ := s
  obtain ⟨first', last'⟩ := s'
  obtain ⟨rfl, rfl⟩ := eq_of_place_eq h.2 h'.2 heq
  rfl

theorem div_lt_wordsFor {symbolCount : Nat} {a : NonTerm} (h : a.index < symbolCount) :
    a.index / 64 < wordsFor symbolCount := by
  simp only [wordsFor]
  omega

theorem word_lt {width symbolCount : Nat} {s : Span} {a : NonTerm} (hs : s.Within width)
    (ha : a.index < symbolCount) :
    word width symbolCount s a < width * width * wordsFor symbolCount :=
  place_lt (cell_lt hs) (div_lt_wordsFor ha)

/-- Two pairs share a word only if they share the cell, and there the 64 non-terminals. -/
theorem word_inj {width symbolCount : Nat} {s s' : Span} {a a' : NonTerm} (hs : s.Within width)
    (hs' : s'.Within width) (ha : a.index < symbolCount) (ha' : a'.index < symbolCount)
    (heq : word width symbolCount s a = word width symbolCount s' a') :
    s = s' ∧ a.index / 64 = a'.index / 64 := by
  obtain ⟨hcell, hword⟩ := eq_of_place_eq (div_lt_wordsFor ha) (div_lt_wordsFor ha') heq
  exact ⟨cell_inj hs hs' hcell, hword⟩

/-! ## Allocation -/

/-- The cells and the words of a table can be counted. -/
structure Addressable (width symbolCount : Nat) : Prop where
  cells_lt : width * width < UInt64.size
  words_lt : width * width * wordsFor symbolCount < UInt64.size

/-- There is memory for a table. -/
structure HasRoom (memory : Memory) (width symbolCount : Nat) : Prop
    extends Addressable width symbolCount where
  words : memory.grantsWords (width * width * wordsFor symbolCount) = true
  cells : memory.grantsCells (width * width * wordsFor symbolCount) (width * width) = true

instance (width symbolCount : Nat) : Decidable (Addressable width symbolCount) :=
  decidable_of_iff (width * width < UInt64.size ∧
      width * width * wordsFor symbolCount < UInt64.size)
    ⟨fun ⟨hcells, hwords⟩ ↦ ⟨hcells, hwords⟩, fun h ↦ ⟨h.cells_lt, h.words_lt⟩⟩

instance (memory : Memory) (width symbolCount : Nat) :
    Decidable (HasRoom memory width symbolCount) :=
  decidable_of_iff (Addressable width symbolCount ∧
      memory.grantsWords (width * width * wordsFor symbolCount) = true ∧
      memory.grantsCells (width * width * wordsFor symbolCount) (width * width) = true)
    ⟨fun ⟨h, hwords, hcells⟩ ↦ ⟨h, hwords, hcells⟩, fun h ↦ ⟨h.toAddressable, h.words, h.cells⟩⟩

variable {memory : Memory} {width symbolCount : Nat}

theorem Addressable.width_lt (h : Addressable width symbolCount) : width < UInt64.size :=
  Nat.lt_of_le_of_lt (Nat.le_mul_self width) h.cells_lt

/-- With memory for it, a table is there without any entry. -/
theorem allocate_of_hasRoom (h : HasRoom memory width symbolCount) :
    allocate memory width symbolCount = .ok (.empty width symbolCount) := by
  simp only [allocate, mul?_eq_some h.cells_lt, mul?_eq_some h.words_lt, h.words, h.cells]
  rfl

/-- For a table that can be counted, there is no room just if a request is not granted. -/
theorem allocate_of_not_hasRoom (h : Addressable width symbolCount)
    (hroom : ¬HasRoom memory width symbolCount) :
    allocate memory width symbolCount = .error (.allocation (width * width)) := by
  simp only [allocate, mul?_eq_some h.cells_lt, mul?_eq_some h.words_lt]
  by_cases hwords : memory.grantsWords (width * width * wordsFor symbolCount) = true
  · have hcells :
        ¬memory.grantsCells (width * width * wordsFor symbolCount) (width * width) = true :=
      fun hcells ↦ hroom ⟨h, hwords, hcells⟩
    simp only [hwords, hcells]
    rfl
  · simp only [hwords]
    rfl

/-- A table that cannot be counted is too large for any machine. -/
theorem allocate_of_not_addressable (h : ¬Addressable width symbolCount) :
    allocate memory width symbolCount = .error (.chartTooLarge width) := by
  rw [allocate]
  by_cases hcells : width * width < UInt64.size
  · have hwords : ¬width * width * wordsFor symbolCount < UInt64.size :=
      fun hwords ↦ h ⟨hcells, hwords⟩
    rw [mul?_eq_some hcells]
    simp only [mul?_eq_none hwords]
    rfl
  · rw [mul?_eq_none hcells]
    rfl

/-- The fault that is reported if there is no memory for a table. -/
def fault (width symbolCount : Nat) : Fault :=
  if Addressable width symbolCount then .allocation (width * width) else .chartTooLarge width

/-- A table is there without any entry, or there is a fault. -/
theorem allocate_eq (memory : Memory) (width symbolCount : Nat) :
    allocate memory width symbolCount =
      if HasRoom memory width symbolCount then .ok (.empty width symbolCount)
      else .error (fault width symbolCount) := by
  split
  case isTrue hroom => exact allocate_of_hasRoom hroom
  case isFalse hroom =>
    rw [fault]
    split
    case isTrue h => exact allocate_of_not_hasRoom h hroom
    case isFalse h => exact allocate_of_not_addressable h

/-! ## Recording -/

/-- The arrays have room for every cell and word. -/
structure Sized (t : Table) : Prop where
  bits : t.bits.size = t.width * t.width * wordsFor t.symbolCount
  reasons : t.reasons.size = t.width * t.width

theorem sized_empty (width symbolCount : Nat) : (empty width symbolCount).Sized :=
  ⟨by simp [empty], by simp [empty]⟩

theorem Sized.record {t : Table} (h : t.Sized) (s : Span) (a : NonTerm) (b : Backpointer) :
    (t.record s a b).Sized := by
  obtain ⟨width, symbolCount, bits, reasons⟩ := t
  exact ⟨by simpa [Table.record] using h.bits, by simpa [Table.record] using h.reasons⟩

@[simp] theorem contains_empty (width symbolCount : Nat) (s : Span) (a : NonTerm) :
    (empty width symbolCount).contains s a = false := by
  simp only [contains, empty, and_mask_bne_zero, Array.getD_eq_getD_getElem?]
  rw [Array.getElem?_replicate]
  split <;> simp

@[simp] theorem backpointer?_empty (width symbolCount : Nat) (s : Span) (a : NonTerm) :
    (empty width symbolCount).backpointer? s a = none := by
  simp only [backpointer?, empty, Array.getD_eq_getD_getElem?]
  rw [Array.getElem?_replicate]
  split
  · split <;> rfl
  · rfl

/-- Recording a pair adds that pair to the entries, and no other. -/
theorem contains_record {t : Table} (h : t.Sized) {s : Span} {a : NonTerm}
    (hs : s.Within t.width) (ha : a.index < t.symbolCount) (b : Backpointer) (s' : Span)
    (a' : NonTerm) :
    (t.record s a b).contains s' a' = (t.contains s' a' || decide (s' = s ∧ a' = a)) := by
  obtain ⟨width, symbolCount, bits, reasons⟩ := t
  by_cases hs' : s'.Within width
  · by_cases ha' : a'.index < symbolCount
    · have hlt : word width symbolCount s' a' < bits.size := h.bits ▸ word_lt hs' ha'
      simp only [contains, record, hs', ha', and_mask_bne_zero, Array.getD_eq_getD_getElem?,
        Array.getElem?_modify, decide_true, Bool.true_and, Array.getElem?_eq_getElem hlt]
      split
      · rename_i heq
        obtain ⟨rfl, hdiv⟩ := word_inj hs hs' ha ha' heq
        have hmod : a'.index % 64 = a.index % 64 ↔ a' = a := by
          rw [NonTerm.ext_iff]
          omega
        simp [testBit_mask, hmod]
      · rename_i hne
        have hpair : ¬(s' = s ∧ a' = a) := fun ⟨hs'', ha''⟩ ↦ hne (by rw [hs'', ha''])
        simp [hpair]
    · have hpair : ¬(s' = s ∧ a' = a) := fun ⟨_, ha''⟩ ↦ ha' (ha'' ▸ ha)
      simp [contains, record, ha', hpair]
  · have hpair : ¬(s' = s ∧ a' = a) := fun ⟨hs'', _⟩ ↦ hs' (hs'' ▸ hs)
    simp [contains, record, hs', hpair]

/-- The last reason recorded for a pair is kept, and no other pair is touched. -/
theorem backpointer?_record {t : Table} (h : t.Sized) {s : Span} (hs : s.Within t.width)
    (a : NonTerm) (b : Backpointer) (s' : Span) (a' : NonTerm) :
    (t.record s a b).backpointer? s' a' =
      if s' = s ∧ a' = a then some b else t.backpointer? s' a' := by
  obtain ⟨width, symbolCount, bits, reasons⟩ := t
  by_cases hs' : s'.Within width
  · have hlt : cell width s' < reasons.size := h.reasons ▸ cell_lt hs'
    simp only [backpointer?, record, if_pos hs', Array.getD_eq_getD_getElem?,
      Array.getElem?_modify, Array.getElem?_eq_getElem hlt]
    by_cases heq : s' = s
    · simp [heq, Reasons.lookup_insert]
    · have hne : cell width s ≠ cell width s' := fun hc ↦ heq (cell_inj hs hs' hc).symm
      simp [heq, hne]
  · have hne : ¬(s' = s ∧ a' = a) := fun ⟨hs'', _⟩ ↦ hs' (hs'' ▸ hs)
    simp [backpointer?, record, hs', hne]

end Table

end ContextFree.Cyk
