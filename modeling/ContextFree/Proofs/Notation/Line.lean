import ContextFree.Notation.Line
import ContextFree.Proofs.Text.Fields
import Mathlib.Data.List.Infix

/-!
# Rule lines

A rule line is split at its first arrow, the first character apart, which always belongs to the
left-hand side.  So the left-hand sides that can be read are the fields in which no arrow begins
behind the first character; and each of them can, with any text behind the arrow.

A trimmed line is read by its kind (`ofTrimmed_eq`), and a line that should be a rule by its split,
then its quotes, then its alternatives (`ruleOfTrimmed_eq_error_iff`).
-/

namespace ContextFree.Notation

open ContextFree.Text

variable {s t : List Char}

/-! ## Arrows -/

/-- The text begins with an arrow of either kind. -/
def BeginsWithArrow (s : List Char) : Prop := ['-', '>'] <+: s ∨ [':', ':', '='] <+: s

/-- No arrow begins at the second character or later. -/
def ArrowFree (s : List Char) : Prop := ∀ t ∈ s.tail.tails, ¬BeginsWithArrow t

instance (s : List Char) : Decidable (BeginsWithArrow s) :=
  inferInstanceAs (Decidable (_ ∨ _))

instance (s : List Char) : Decidable (ArrowFree s) :=
  inferInstanceAs (Decidable (∀ t ∈ s.tail.tails, ¬BeginsWithArrow t))

theorem afterArrow?_eq_none_iff : afterArrow? s = none ↔ ¬BeginsWithArrow s := by
  rw [BeginsWithArrow]
  fun_cases afterArrow? s
  case case1 => simp
  case case2 => simp
  case case3 harrow hcolons =>
    refine iff_of_true rfl ?_
    rintro (⟨t, rfl⟩ | ⟨t, rfl⟩)
    · exact harrow t rfl
    · exact hcolons t rfl

theorem subset_of_afterArrow? (h : afterArrow? s = some t) : t ⊆ s := by
  revert h
  fun_cases afterArrow? s
  case case1 =>
    rintro ⟨⟩
    exact List.subset_cons_of_subset _ (List.subset_cons_self _ _)
  case case2 =>
    rintro ⟨⟩
    exact List.subset_cons_of_subset _ (List.subset_cons_of_subset _ (List.subset_cons_self _ _))
  case case3 => nofun

/-- An arrow before a character that none has was there without it. -/
theorem prefix_of_prefix_append_cons {p : List Char} {c : Char} (hc : c ∉ p)
    (h : p <+: s ++ c :: t) : p <+: s := by
  induction p generalizing s with
  | nil => exact List.nil_prefix
  | cons d p ih =>
    obtain ⟨hd, hp⟩ : c ≠ d ∧ c ∉ p := by simpa using hc
    cases s with
    | nil => exact absurd (List.cons_prefix_cons.1 h).1.symm hd
    | cons e s =>
      obtain ⟨rfl, hrest⟩ := List.cons_prefix_cons.1 h
      exact List.cons_prefix_cons.2 ⟨rfl, ih hp hrest⟩

theorem BeginsWithArrow.of_append_space (h : BeginsWithArrow (s ++ ' ' :: t)) :
    BeginsWithArrow s :=
  h.imp (prefix_of_prefix_append_cons (by decide)) (prefix_of_prefix_append_cons (by decide))

theorem BeginsWithArrow.of_prefix (h : BeginsWithArrow s) (hst : s <+: t) : BeginsWithArrow t :=
  h.imp (·.trans hst) (·.trans hst)

theorem ArrowFree.of_cons_cons {c d : Char} (h : ArrowFree (c :: d :: s)) :
    ¬BeginsWithArrow (d :: s) ∧ ArrowFree (d :: s) := by
  refine ⟨h _ (by simp), fun t ht ↦ h t ?_⟩
  rw [List.tail_cons, List.mem_tails] at ht ⊢
  exact ht.trans (List.suffix_cons d s)

theorem ArrowFree.cons {c : Char} (hs : ¬BeginsWithArrow s) (h : ArrowFree s) :
    ArrowFree (c :: s) := by
  intro t ht
  cases s with
  | nil =>
    obtain rfl : t = [] := by simpa using ht
    exact hs
  | cons d s =>
    rw [List.tail_cons, List.mem_tails, List.suffix_cons_iff] at ht
    rcases ht with rfl | ht
    · exact hs
    · exact h t ((List.mem_tails _ _).2 ht)

/-! ## Splitting -/

/-- A text that can stand on the left in a line of its own: it opens no comment, and ends at the
arrow behind it. -/
structure IsLhs (s : List Char) : Prop where
  isField : IsField s
  head_ne : s.head? ≠ some '#'
  arrowFree : ArrowFree s

instance (s : List Char) : Decidable (IsLhs s) :=
  decidable_of_iff (IsField s ∧ s.head? ≠ some '#' ∧ ArrowFree s)
    ⟨fun ⟨hfield, hhead, hfree⟩ ↦ ⟨hfield, hhead, hfree⟩,
      fun ⟨hfield, hhead, hfree⟩ ↦ ⟨hfield, hhead, hfree⟩⟩

/-- A field in which no arrow begins is split off at the arrow behind it. -/
theorem splitRule?_append (hs : IsField s) (hfree : ArrowFree s) (rhs : List Char) :
    splitRule? (s ++ ' ' :: '-' :: '>' :: rhs) = some (s, rhs) := by
  induction s with
  | nil => exact absurd rfl hs.ne_nil
  | cons c s ih =>
    have hblank : ∀ d ∈ c :: s, ¬isBlank d = true := fun d hd ↦ by simp [hs.not_blank d hd]
    rw [List.cons_append, splitRule?, if_neg (hblank c (.head _))]
    cases s with
    | nil => rfl
    | cons d s =>
      obtain ⟨harrow, hfree⟩ := hfree.of_cons_cons
      have hnone : afterArrow? (trimStart (d :: (s ++ ' ' :: '-' :: '>' :: rhs))) = none := by
        rw [trimStart_of_not_isBlank (hs.not_blank d (.tail _ (.head _))), afterArrow?_eq_none_iff]
        exact fun h ↦ harrow h.of_append_space
      have hrest := ih ⟨List.cons_ne_nil d s, fun e he ↦ hs.not_blank e (.tail _ he)⟩ hfree
      rw [List.cons_append] at hrest ⊢
      rw [hnone, hrest]
      rfl

/-- What is split off is a field in which no arrow begins, and nothing is made up. -/
theorem splitRule?_eq_some {lhs rhs : List Char} (h : splitRule? s = some (lhs, rhs)) :
    IsField lhs ∧ ArrowFree lhs ∧ lhs <+: s ∧ rhs ⊆ s := by
  induction s generalizing lhs with
  | nil => cases h
  | cons c s ih =>
    rw [splitRule?] at h
    split at h
    case isTrue => cases h
    case isFalse hc =>
      have hc : isBlank c = false := by simpa using hc
      split at h
      case h_1 rhs' harrow =>
        cases h
        refine ⟨⟨List.cons_ne_nil c [], by simpa using hc⟩, fun t ht ↦ ?_, by simp, ?_⟩
        · obtain rfl : t = [] := by simpa using ht
          decide
        · have hsub := List.Subset.trans (subset_of_afterArrow? harrow)
            (List.dropWhile_suffix _).subset
          exact List.subset_cons_of_subset c hsub
      case h_2 harrow =>
        obtain ⟨⟨lhs', rhs'⟩, hrest, heq⟩ := Option.map_eq_some_iff.1 h
        cases heq
        obtain ⟨hfield, hfree, hprefix, hsub⟩ := ih hrest
        refine ⟨⟨List.cons_ne_nil c lhs', ?_⟩, hfree.cons ?_, ?_, ?_⟩
        · exact List.forall_mem_cons.2 ⟨hc, hfield.not_blank⟩
        · -- the rest begins as the left-hand side does, so there was nothing to trim
          intro hbegins
          cases s with
          | nil => cases hrest
          | cons d s =>
            cases lhs' with
            | nil => exact hfield.ne_nil rfl
            | cons d' lhs' =>
              obtain ⟨rfl, -⟩ := List.cons_prefix_cons.1 hprefix
              rw [trimStart_of_not_isBlank (hfield.not_blank d' (.head _)),
                afterArrow?_eq_none_iff] at harrow
              exact harrow (hbegins.of_prefix hprefix)
        · exact List.cons_prefix_cons.2 ⟨rfl, hprefix⟩
        · exact List.subset_cons_of_subset c hsub

/-! ## Reading a rule -/

theorem ruleOfTrimmed_eq_ok_iff {number : Nat} {line : Line} :
    Line.ruleOfTrimmed number s = .ok line ↔ ∃ lhs rhs as, splitRule? s = some (lhs, rhs) ∧
      alternatives? rhs = some as ∧ [] ∉ as ∧ line = .rule (String.ofList lhs) as := by
  rw [Line.ruleOfTrimmed]
  cases splitRule? s with
  | none => simp [throw, throwThe, MonadExceptOf.throw]
  | some sides =>
    obtain ⟨lhs, rhs⟩ := sides
    cases has : alternatives? rhs with
    | none => simp [throw, throwThe, MonadExceptOf.throw, has]
    | some as =>
      by_cases hnil : [] ∈ as
      · simp [throw, throwThe, MonadExceptOf.throw, has, hnil]
      · simp [pure, Except.pure, has, hnil, eq_comm]

/-- The arrow comes first, then the quotes, then the alternatives. -/
theorem ruleOfTrimmed_eq_error_iff {number : Nat} {e : GrammarError} :
    Line.ruleOfTrimmed number s = .error e ↔
      splitRule? s = none ∧ e = .malformedRule number (String.ofList s) ∨
      ∃ lhs rhs, splitRule? s = some (lhs, rhs) ∧
        (alternatives? rhs = none ∧ e = .unterminatedQuote number ∨
          ∃ as, alternatives? rhs = some as ∧ [] ∈ as ∧
            e = .emptyProduction (String.ofList lhs)) := by
  rw [Line.ruleOfTrimmed]
  cases splitRule? s with
  | none => simp [throw, throwThe, MonadExceptOf.throw, eq_comm]
  | some sides =>
    obtain ⟨lhs, rhs⟩ := sides
    cases has : alternatives? rhs with
    | none => simp [throw, throwThe, MonadExceptOf.throw, has, eq_comm]
    | some as =>
      by_cases hnil : [] ∈ as
      · simp [throw, throwThe, MonadExceptOf.throw, has, hnil, eq_comm]
      · simp [pure, Except.pure, has, hnil]

/-! ## Kinds of lines -/

/-- What a trimmed line is there for. -/
inductive LineKind where
  /-- A blank line, or a comment. -/
  | skipped
  /-- The keyword `%start` and one name. -/
  | start
  /-- The keyword `%nonterm` and one name or more. -/
  | declaration
  | rule
deriving DecidableEq, Repr

/-- The kind of a trimmed line.  What is not recognized as another kind should be a rule. -/
def lineKind (s : List Char) : LineKind :=
  if s = [] ∨ s.head? = some '#' then .skipped
  else if (fields s).head? = some "%start".toList ∧ (fields s).length = 2 then .start
  else if (fields s).head? = some "%nonterm".toList ∧ 2 ≤ (fields s).length then .declaration
  else .rule

/-- The name behind a keyword. -/
def secondField (s : List Char) : String := String.ofList ((fields s).getD 1 [])

/-- The names behind a keyword. -/
def laterFields (s : List Char) : List String := (fields s).tail.map String.ofList

/-- A line that names the start symbol. -/
theorem ofTrimmed_eq_start {number : Nat} {x : List Char}
    (hfields : fields s = ["%start".toList, x]) (hcomment : s.head? ≠ some '#') :
    Line.ofTrimmed number s = .ok (.start (String.ofList x)) := by
  have hne : s ≠ [] := by
    rintro rfl
    simp at hfields
  rw [Line.ofTrimmed, if_neg (by simp [hne, hcomment]), hfields]
  rfl

/-- A line that declares non-terminals. -/
theorem ofTrimmed_eq_declare {number : Nat} {x : List Char} {fs : List (List Char)}
    (hfields : fields s = "%nonterm".toList :: x :: fs) (hcomment : s.head? ≠ some '#') :
    Line.ofTrimmed number s = .ok (.declare ((x :: fs).map String.ofList)) := by
  have hne : s ≠ [] := by
    rintro rfl
    simp at hfields
  rw [Line.ofTrimmed, if_neg (by simp [hne, hcomment]), hfields]
  rfl

/-- A line is read by its kind. -/
theorem ofTrimmed_eq (number : Nat) (s : List Char) : Line.ofTrimmed number s =
    match lineKind s with
    | .skipped => .ok .empty
    | .start => .ok (.start (secondField s))
    | .declaration => .ok (.declare (laterFields s))
    | .rule => Line.ruleOfTrimmed number s := by
  fun_cases lineKind s
  case case1 hskipped =>
    rw [Line.ofTrimmed, if_pos hskipped]
    rfl
  case case2 hskipped hstart =>
    obtain ⟨x, y, hfields⟩ := List.length_eq_two.1 hstart.2
    obtain rfl : x = "%start".toList := by simpa [hfields] using hstart.1
    simp [ofTrimmed_eq_start hfields (mt .inr hskipped), secondField, hfields]
  case case3 hskipped _ hdeclare =>
    obtain ⟨hhead, hlength⟩ := hdeclare
    obtain ⟨fs, hfields⟩ := List.head?_eq_some_iff.1 hhead
    obtain ⟨y, fs, rfl⟩ := List.exists_cons_of_ne_nil (l := fs) (by
      rintro rfl
      simp [hfields] at hlength)
    simp [ofTrimmed_eq_declare hfields (mt .inr hskipped), laterFields, hfields]
  case case4 hskipped hstart hdeclare =>
    rw [Line.ofTrimmed, if_neg hskipped]
    split
    case h_1 name heq =>
      obtain ⟨x, fs, hfields, hx, hfs⟩ := List.map_eq_cons_iff.1 heq
      refine absurd ⟨?_, ?_⟩ hstart
      · simp [hfields, ← hx]
      · simpa [hfields] using congrArg List.length hfs
    case h_2 name names heq =>
      obtain ⟨x, fs, hfields, hx, hfs⟩ := List.map_eq_cons_iff.1 heq
      refine absurd ⟨?_, ?_⟩ hdeclare
      · simp [hfields, ← hx]
      · have hlength := congrArg List.length hfs
        simp only [List.length_map, List.length_cons] at hlength
        simp only [hfields, List.length_cons]
        omega
    case h_3 => rfl

/-- Only a rule can be an error. -/
theorem ofTrimmed_eq_error_iff {number : Nat} {e : GrammarError} :
    Line.ofTrimmed number s = .error e ↔
      lineKind s = .rule ∧ Line.ruleOfTrimmed number s = .error e := by
  rw [ofTrimmed_eq]
  cases lineKind s with
  | rule => simp
  | skipped | start | declaration => simp

/-- A line of three fields or more that does not declare non-terminals can only be a rule. -/
theorem ofTrimmed_eq_ruleOfTrimmed {number : Nat} {x y z : List Char} {fs : List (List Char)}
    (hfields : fields s = x :: y :: z :: fs) (hcomment : s.head? ≠ some '#')
    (hdeclare : String.ofList x ≠ "%nonterm") :
    Line.ofTrimmed number s = Line.ruleOfTrimmed number s := by
  have hne : s ≠ [] := by
    rintro rfl
    simp at hfields
  have hx : x ≠ "%nonterm".toList := fun heq ↦ hdeclare (by rw [heq, String.ofList_toList])
  have hkind : lineKind s = .rule := by
    rw [lineKind, hfields, if_neg (by simp [hne, hcomment]), if_neg (by simp),
      if_neg (by simpa using hx)]
  rw [ofTrimmed_eq, hkind]

end ContextFree.Notation
