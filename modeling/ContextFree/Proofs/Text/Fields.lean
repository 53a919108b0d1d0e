import ContextFree.Text.Blank

/-!
# Fields and trimmed texts

A text without a blank is a single field.  Put together with blanks between them, such texts are the
fields of the whole; and trimming leaves alone what neither begins nor ends with a blank.
-/

namespace ContextFree.Text

variable {s t : List Char}

/-- A text that is one field: it is not empty, and no character is blank. -/
structure IsField (s : List Char) : Prop where
  ne_nil : s ≠ []
  not_blank : ∀ c ∈ s, isBlank c = false

instance (s : List Char) : Decidable (IsField s) :=
  decidable_of_iff (s ≠ [] ∧ s.all (!isBlank ·) = true)
    ⟨fun ⟨hne, hall⟩ ↦ ⟨hne, by simpa using hall⟩, fun ⟨hne, hblank⟩ ↦ ⟨hne, by simpa using hblank⟩⟩

theorem IsField.newline_notMem (hs : IsField s) : '\n' ∉ s := fun hmem ↦ by
  have hblank : isBlank '\n' = true := by decide
  simp [hs.not_blank _ hmem] at hblank

/-! ## Fields -/

@[simp] theorem isBlank_space : isBlank ' ' = true := by decide

/-- A field is read up to the blank that ends it. -/
theorem fields_append (hs : IsField s) (ht : ∀ c ∈ t.head?, isBlank c = true) :
    fields (s ++ t) = s :: fields t := by
  obtain ⟨hne, hblank⟩ := hs
  cases s with
  | nil => exact absurd rfl hne
  | cons c s =>
    have hc : ¬isBlank c = true := by simp [hblank c (.head _)]
    have hs : ∀ d ∈ s, (!isBlank d) = true := fun d hd ↦ by simp [hblank d (.tail _ hd)]
    have hstop : t.takeWhile (!isBlank ·) = [] ∧ t.dropWhile (!isBlank ·) = t := by
      cases t with
      | nil => simp
      | cons d t => simp [ht d rfl]
    rw [List.cons_append, fields_cons_of_not_isBlank hc, List.takeWhile_append_of_pos hs,
      List.dropWhile_append_of_pos hs, hstop.1, hstop.2, List.append_nil]

/-- The fields of texts that each follow a space are these texts. -/
theorem fields_flatMap_space {ss : List (List Char)} (h : ∀ s ∈ ss, IsField s) :
    fields (ss.flatMap (' ' :: ·)) = ss := by
  induction ss with
  | nil => simp
  | cons s ss ih =>
    have hrest : ∀ c ∈ (ss.flatMap (' ' :: ·)).head?, isBlank c = true := by
      cases ss <;> simp
    rw [List.flatMap_cons, List.cons_append, fields_cons_of_isBlank isBlank_space,
      fields_append (h s (.head _)) hrest, ih fun s hs ↦ h s (.tail _ hs)]

/-- A field of a text is one, and its characters are some of the text. -/
theorem isField_and_subset_of_mem_fields {f : List Char} (h : f ∈ fields s) :
    IsField f ∧ f ⊆ s := by
  induction hn : s.length using Nat.strongRecOn generalizing s with
  | ind n ih =>
    cases s with
    | nil => simp at h
    | cons c s =>
      by_cases hc : isBlank c = true
      · rw [fields_cons_of_isBlank hc] at h
        exact (ih _ (by simp [← hn]) h rfl).imp_right (List.subset_cons_of_subset c)
      · rw [fields_cons_of_not_isBlank hc] at h
        rcases List.mem_cons.1 h with rfl | h
        · refine ⟨⟨by simp, fun d hd ↦ ?_⟩, fun d hd ↦ ?_⟩
          · rcases List.mem_cons.1 hd with rfl | hd
            · simpa using hc
            · simpa using List.all_eq_true.1 List.all_takeWhile d hd
          · rcases List.mem_cons.1 hd with rfl | hd
            · exact .head _
            · exact .tail _ ((List.takeWhile_prefix _).subset hd)
        · have hlt := length_dropWhile_le (!isBlank ·) s
          have hlen : (s.dropWhile (!isBlank ·)).length < n := by
            simp only [List.length_cons] at hn
            omega
          exact (ih _ hlen h rfl).imp_right fun hsub ↦
            List.subset_cons_of_subset c (List.Subset.trans hsub (List.dropWhile_suffix _).subset)

/-- What is not all blank has a field. -/
theorem fields_ne_nil {c : Char} (hc : c ∈ s) (h : isBlank c = false) : fields s ≠ [] := by
  induction s with
  | nil => cases hc
  | cons d s ih =>
    by_cases hd : isBlank d = true
    · rw [fields_cons_of_isBlank hd]
      rcases List.mem_cons.1 hc with rfl | hc
      · simp [hd] at h
      · exact ih hc
    · rw [fields_cons_of_not_isBlank hd]
      exact List.cons_ne_nil _ _

/-! ## Trimming -/

/-- The last character is there and not blank. -/
def EndsSolid (s : List Char) : Prop := ∃ c ∈ s.getLast?, isBlank c = false

theorem EndsSolid.append_left (s : List Char) (ht : EndsSolid t) : EndsSolid (s ++ t) := by
  obtain ⟨c, hc, hblank⟩ := ht
  exact ⟨c, by simp [List.getLast?_append, Option.mem_def.1 hc], hblank⟩

theorem EndsSolid.cons (c : Char) (hs : EndsSolid s) : EndsSolid (c :: s) := hs.append_left [c]

theorem EndsSolid.fields_ne_nil (hs : EndsSolid s) : fields s ≠ [] := by
  obtain ⟨c, hc, hblank⟩ := hs
  exact Text.fields_ne_nil (List.mem_of_getLast? hc) hblank

theorem IsField.endsSolid (hs : IsField s) : EndsSolid s :=
  ⟨s.getLast hs.ne_nil, List.getLast?_eq_some_getLast hs.ne_nil,
    hs.not_blank _ (List.getLast_mem hs.ne_nil)⟩

/-- What neither begins nor ends with a blank. -/
structure IsTrimmed (s : List Char) : Prop where
  head : ∀ c ∈ s.head?, isBlank c = false
  last : ∀ c ∈ s.getLast?, isBlank c = false

/-- Only the ends matter. -/
theorem IsField.isTrimmed_append (hs : IsField s) (ht : EndsSolid t) : IsTrimmed (s ++ t) where
  head c hc := by
    obtain ⟨d, s, rfl⟩ := List.exists_cons_of_ne_nil hs.ne_nil
    exact hs.not_blank c (List.mem_of_head? hc)
  last c hc := by
    obtain ⟨d, hd, hblank⟩ := ht.append_left s
    obtain rfl : d = c := Option.mem_unique hd hc
    exact hblank

theorem trim_eq_self (hs : IsTrimmed s) : trim s = s := by
  have hkeep : ∀ t : List Char, (∀ c ∈ t.head?, isBlank c = false) →
      t.dropWhile isBlank = t := by
    intro t ht
    cases t with
    | nil => rfl
    | cons c t => simp [ht c rfl]
  have hlast : ∀ c ∈ s.reverse.head?, isBlank c = false := by
    rw [List.head?_reverse]
    exact hs.last
  rw [trim, trimStart, hkeep s hs.head, trimEnd, hkeep s.reverse hlast, List.reverse_reverse]

/-- Trailing blanks go. -/
theorem trimEnd_append_blanks {l : List Char} (hl : ∀ c ∈ l, isBlank c = true) :
    trimEnd (s ++ l) = trimEnd s := by
  have hreverse : ∀ c ∈ l.reverse, isBlank c = true := fun c hc ↦ hl c (List.mem_reverse.1 hc)
  rw [trimEnd, trimEnd, List.reverse_append, List.dropWhile_append_of_pos hreverse]

/-- What stands before a solid end stays. -/
theorem trimEnd_append (hs : EndsSolid s) (t : List Char) : trimEnd (s ++ t) = s ++ trimEnd t := by
  obtain ⟨c, hc, hblank⟩ := hs
  have hkeep : s.reverse.dropWhile isBlank = s.reverse := by
    obtain ⟨s, rfl⟩ := List.getLast?_eq_some_iff.1 hc
    simp [hblank]
  rw [trimEnd, trimEnd, List.reverse_append, List.dropWhile_append, hkeep]
  split
  case isTrue hempty => simp [List.isEmpty_iff.1 hempty]
  case isFalse => simp

/-- Trimming leaves a solid beginning alone. -/
theorem IsField.trim_append (hs : IsField s) {t : List Char} (ht : EndsSolid t)
    (u : List Char) : trim (s ++ t ++ u) = s ++ t ++ trimEnd u := by
  obtain ⟨c, s, rfl⟩ := List.exists_cons_of_ne_nil hs.ne_nil
  have hstart : trimStart (c :: s ++ t ++ u) = c :: s ++ t ++ u := by
    simp [trimStart, hs.not_blank c (.head _)]
  rw [trim, hstart, trimEnd_append (ht.append_left _)]

/-- Trailing blanks are all that is dropped at the end. -/
theorem exists_trimEnd_append (s : List Char) :
    ∃ l, s = trimEnd s ++ l ∧ ∀ c ∈ l, isBlank c = true := by
  refine ⟨(s.reverse.takeWhile isBlank).reverse, ?_, fun c hc ↦ ?_⟩
  · rw [trimEnd, ← List.reverse_append, List.takeWhile_append_dropWhile, List.reverse_reverse]
  · exact List.all_eq_true.1 List.all_takeWhile c (List.mem_reverse.1 hc)

/-- Trimming takes characters away only. -/
theorem trim_subset (s : List Char) : trim s ⊆ s := by
  intro c hc
  have hreverse : c ∈ (trimStart s).reverse.dropWhile isBlank := List.mem_reverse.1 hc
  have hstart := List.mem_reverse.1 ((List.dropWhile_suffix _).subset hreverse)
  exact (List.dropWhile_suffix _).subset hstart

/-- What does not begin with a blank has none to drop at its beginning. -/
theorem trimStart_of_not_isBlank {c : Char} (h : isBlank c = false) (s : List Char) :
    trimStart (c :: s) = c :: s := by simp [trimStart, h]

end ContextFree.Text
