import ContextFree.Proofs.Text.Fields
import ContextFree.Text.Lines

/-!
# Lines of a text

Texts without a newline, each closed by one, are the lines of the whole, with an empty line behind.
Once they are trimmed, it makes no difference whether lines end with a carriage return.
-/

namespace ContextFree.Text

/-- A line goes up to the first newline. -/
theorem lines_append_newline {l : List Char} (h : '\n' ∉ l) (s : List Char) :
    lines (l ++ '\n' :: s) = l :: lines s := by
  induction l with
  | nil => simp
  | cons c l ih =>
    have hc : ¬c = '\n' := fun heq ↦ h (heq ▸ .head l)
    have hl : '\n' ∉ l := fun hmem ↦ h (.tail c hmem)
    rw [List.cons_append, lines, if_neg hc, ih hl]

theorem lines_unlines {ls : List (List Char)} (h : ∀ l ∈ ls, '\n' ∉ l) :
    lines (unlines ls) = ls ++ [[]] := by
  induction ls with
  | nil => rfl
  | cons l ls ih =>
    rw [unlines_cons, lines_append_newline (h l (.head _)), ih fun l hl ↦ h l (.tail _ hl),
      List.cons_append]

/-- A text without a newline is a line. -/
theorem lines_eq_singleton {l : List Char} (h : '\n' ∉ l) : lines l = [l] := by
  induction l with
  | nil => rfl
  | cons c l ih =>
    obtain ⟨hc, hl⟩ : '\n' ≠ c ∧ '\n' ∉ l := by simpa using h
    rw [lines, if_neg (Ne.symm hc), ih hl]

/-- Texts with newlines between them are the lines of the whole. -/
theorem lines_intercalate {ls : List (List Char)} (hne : ls ≠ []) (h : ∀ l ∈ ls, '\n' ∉ l) :
    lines (['\n'].intercalate ls) = ls := by
  induction ls with
  | nil => exact absurd rfl hne
  | cons l ls ih =>
    obtain ⟨hl, hls⟩ := List.forall_mem_cons.1 h
    cases ls with
    | nil => simpa using lines_eq_singleton hl
    | cons l' ls =>
      rw [List.intercalate_cons_cons, List.append_assoc, List.singleton_append,
        lines_append_newline hl, ih (by simp) hls]

/-- With an empty text behind them, texts with newlines between them are each closed by one. -/
theorem intercalate_append_nil (ls : List (List Char)) :
    ['\n'].intercalate (ls ++ [[]]) = unlines ls := by
  induction ls with
  | nil => rfl
  | cons l ls ih =>
    have hne : ls ++ [[]] ≠ [] := List.append_ne_nil_of_right_ne_nil ls (List.cons_ne_nil [] [])
    obtain ⟨l', ls', hcons⟩ := List.exists_cons_of_ne_nil hne
    rw [List.cons_append, hcons, List.intercalate_cons_cons, ← hcons, ih, unlines_cons,
      List.append_assoc, List.singleton_append]

/-- No line has a newline. -/
theorem newline_notMem_of_mem_lines {s l : List Char} (h : l ∈ lines s) : '\n' ∉ l := by
  induction s generalizing l with
  | nil => simp_all
  | cons c s ih =>
    rw [lines] at h
    split at h
    case isTrue =>
      rcases List.mem_cons.1 h with rfl | h
      · exact List.not_mem_nil
      · exact ih h
    case isFalse hc =>
      split at h
      case h_1 hnil => exact absurd hnil (lines_ne_nil s)
      case h_2 l' ls hcons =>
        rw [hcons] at ih
        rcases List.mem_cons.1 h with rfl | h
        · intro hmem
          rcases List.mem_cons.1 hmem with heq | hmem
          · exact hc heq.symm
          · exact ih (.head _) hmem
        · exact ih (.tail _ h)

/-! ## Trimmed lines -/

/-- A line without the carriage return that may stand at its end. -/
def dropReturn (l : List Char) : List Char :=
  if l.getLast? = some '\r' then l.dropLast else l

/-- The lines of a text without carriage returns at their ends, and then without blanks at either
end. -/
def trimmedLines (text : String) : List (List Char) :=
  (lines text.toList).map (trim ∘ dropReturn)

/-- A carriage return at the end is a blank. -/
theorem trim_dropReturn (l : List Char) : trim (dropReturn l) = trim l := by
  rw [dropReturn]
  split
  case isFalse => rfl
  case isTrue hreturn =>
    obtain ⟨l, rfl⟩ := List.getLast?_eq_some_iff.1 hreturn
    have hblank : isBlank '\r' = true := by decide
    rw [List.dropLast_concat, trim, trim, trimStart, trimStart, List.dropWhile_append]
    split
    case isTrue hempty => simp [List.isEmpty_iff.1 hempty, hblank]
    case isFalse => exact (trimEnd_append_blanks (by simpa using hblank)).symm

theorem trimmedLines_eq (text : String) : trimmedLines text = (lines text.toList).map trim :=
  List.map_congr_left fun l _ ↦ trim_dropReturn l

end ContextFree.Text
