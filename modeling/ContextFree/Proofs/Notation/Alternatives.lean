import ContextFree.Proofs.Notation.Quoting
import ContextFree.Proofs.Notation.Streams

/-!
# Alternatives on lines of their own

The alternatives that a bar separates can stand on one line or on lines of their own, and it makes
no difference to the grammar (`read_eq_ok_of_separate_alternatives`), as long as every quote is
closed: a bar that stands in an open quote separates nothing.
-/

namespace ContextFree.Notation

open ContextFree.Text

variable {lhs : String} {s : List Char}

/-! ## Blanks at the end -/

theorem tokens?_blanks {l : List Char} (hl : ∀ c ∈ l, isBlank c = true) : tokens? l = some [] := by
  induction l with
  | nil => exact tokens?_nil
  | cons c l ih =>
    obtain ⟨hc, hl⟩ := List.forall_mem_cons.1 hl
    rw [tokens?_blank hc, ih hl]

/-- Blanks at the end neither add a token nor close a quote. -/
theorem tokens?_append_blanks {l : List Char} (hl : ∀ c ∈ l, isBlank c = true) :
    tokens? (s ++ l) = tokens? s := by
  cases hs : tokens? s with
  | none =>
    obtain ⟨before, q, after, rfl, hbefore, hq, hafter⟩ := tokens?_eq_none_iff.1 hs
    refine tokens?_eq_none_iff.2 ⟨before, q, after ++ l, by simp, hbefore, hq, fun hmem ↦ ?_⟩
    rcases List.mem_append.1 hmem with hmem | hmem
    · exact hafter hmem
    · simpa [isBlank_eq_false_of_isQuote hq] using hl q hmem
  | some ts =>
    have hstop : ∀ c ∈ l.head?, isWordChar c = false := fun c hc ↦ by
      simp [isWordChar, hl c (List.mem_of_head? hc)]
    rw [tokens?_append_of_eq_some hs hstop, tokens?_blanks hl, Option.map_some, List.append_nil]

theorem alternatives?_append_blanks {l : List Char} (hl : ∀ c ∈ l, isBlank c = true) :
    alternatives? (s ++ l) = alternatives? s := by
  rw [alternatives?, tokens?_append_blanks hl, alternatives?]

theorem alternatives?_trimEnd (s : List Char) : alternatives? (trimEnd s) = alternatives? s := by
  obtain ⟨l, hs, hl⟩ := exists_trimEnd_append s
  conv_rhs => rw [hs, alternatives?_append_blanks hl]

theorem alternatives?_blank {c : Char} (hc : isBlank c = true) (s : List Char) :
    alternatives? (c :: s) = alternatives? s := by rw [alternatives?, tokens?_blank hc, alternatives?]

/-! ## One left-hand side -/

/-- A line with a left-hand side and an arrow. -/
def ruleText (lhs rhs : String) : String := lhs ++ " -> " ++ rhs

theorem trim_ruleText (hlhs : IsField lhs.toList) (rhs : String) :
    trim (ruleText lhs rhs).toList = lhs.toList ++ ' ' :: '-' :: '>' :: trimEnd (' ' :: rhs.toList) := by
  have hsolid : EndsSolid " ->".toList := ⟨'>', rfl, by decide⟩
  simpa [ruleText] using hlhs.trim_append hsolid (' ' :: rhs.toList)

/-- A line with a left-hand side and an arrow is a rule, whatever comes behind the arrow. -/
theorem lineKind_ruleText (hlhs : IsLhs lhs.toList) (hstart : lhs ≠ "%start")
    (hdeclaration : lhs ≠ "%nonterm") (rhs : String) :
    lineKind (trim (ruleText lhs rhs).toList) = .rule := by
  have hfirst : ∀ t, (fields (lhs.toList ++ ' ' :: t)).head? = some lhs.toList := fun t ↦ by
    rw [fields_append hlhs.isField (by simp), List.head?_cons]
  obtain ⟨c, l, hcons⟩ := List.exists_cons_of_ne_nil hlhs.isField.ne_nil
  have hcomment : c ≠ '#' := by simpa [hcons] using hlhs.head_ne
  rw [trim_ruleText hlhs.isField, lineKind, hfirst, if_neg (by simp [hcons, hcomment]),
    if_neg fun h ↦ hstart (String.toList_inj.1 (Option.some.inj h.1)),
    if_neg fun h ↦ hdeclaration (String.toList_inj.1 (Option.some.inj h.1))]

/-- The rules of a line with a given left-hand side. -/
theorem lineRules?_ruleText (hlhs : IsLhs lhs.toList) (rhs : String) :
    lineRules? (trim (ruleText lhs rhs).toList) =
      (alternatives? rhs.toList).bind (alternativeRules? lhs.toList) := by
  rw [trim_ruleText hlhs.isField, lineRules?, splitRule?_append hlhs.isField hlhs.arrowFree]
  simp only [Option.bind_eq_bind, Option.bind_some, alternatives?_trimEnd,
    alternatives?_blank isBlank_space]

theorem alternativeRules?_append (lhs : List Char) (as as' : List (List RawSymbol)) :
    alternativeRules? lhs (as ++ as') =
      do return (← alternativeRules? lhs as) ++ (← alternativeRules? lhs as') := by
  rw [alternativeRules?, alternativeRules?, alternativeRules?]
  by_cases h : [] ∈ as <;> by_cases h' : [] ∈ as' <;> simp [h, h']

/-- The alternatives of closed texts with bars between them are those of the texts. -/
theorem rules?_map_ruleText (hlhs : IsLhs lhs.toList) {rs : List String}
    (hne : rs ≠ []) (h : ∀ r ∈ rs, Closed r.toList) :
    rules? (rs.map fun r ↦ trim (ruleText lhs r).toList) =
      rules? [trim (ruleText lhs (" | ".intercalate rs)).toList] := by
  induction rs with
  | nil => exact absurd rfl hne
  | cons r rs ih =>
    obtain ⟨hr, hrs⟩ := List.forall_mem_cons.1 h
    cases rs with
    | nil => simp
    | cons r' rs =>
      obtain ⟨as, has⟩ := hr.exists_alternatives?
      -- the first text is closed, so the bar behind it separates
      have hbar : alternatives? (" | ".intercalate (r :: r' :: rs)).toList =
          (alternatives? (" | ".intercalate (r' :: rs)).toList).map (as ++ ·) := by
        have hspace : alternatives? (r.toList ++ [' ']) = some as := by
          rw [alternatives?_append_blanks (by simp), has]
        rw [← alternatives?_blank isBlank_space (" | ".intercalate (r' :: rs)).toList,
          ← alternatives?_append_bar hspace, String.intercalate_cons_cons, String.toList_append,
          String.toList_append, List.append_assoc, List.append_assoc]
        rfl
      rw [List.map_cons, rules?, ih (by simp) hrs]
      simp only [rules?, lineRules?_ruleText hlhs, hbar, has]
      cases alternatives? (" | ".intercalate (r' :: rs)).toList with
      | none => simp
      | some as' => simp [alternativeRules?_append]

/-! ## Texts -/

/-- Rule lines that give the same rules can stand for each other. -/
theorem builderOf?_eq_of_rules? {text text' : String} {before after ls ls' : List (List Char)}
    (hls : ∀ l ∈ ls, lineKind l = .rule) (hls' : ∀ l ∈ ls', lineKind l = .rule)
    (hrules : rules? ls = rules? ls') (htext : trimmedLines text = before ++ ls ++ after)
    (htext' : trimmedLines text' = before ++ ls' ++ after) : builderOf? text = builderOf? text' := by
  have hnone : ∀ kind ≠ .rule, linesOfKind kind text = linesOfKind kind text' := by
    intro kind hne
    have hfilter : ∀ ls : List (List Char), (∀ l ∈ ls, lineKind l = .rule) →
        ls.filter (lineKind · = kind) = [] := fun ls hls ↦ by
      simpa using fun l hl ↦ (hls l hl).symm ▸ hne.symm
    simp only [linesOfKind, htext, htext', List.filter_append, hfilter ls hls, hfilter ls' hls']
  have hall : ∀ ls : List (List Char), (∀ l ∈ ls, lineKind l = .rule) →
      ls.filter (lineKind · = .rule) = ls := fun ls hls ↦ by simpa using hls
  have hrule : rules? (linesOfKind .rule text) = rules? (linesOfKind .rule text') := by
    simp only [linesOfKind, htext, htext', List.filter_append, rules?_append, hall ls hls,
      hall ls' hls', hrules]
  rw [builderOf?, builderOf?, hrule, hnone .start (by decide), hnone .declaration (by decide)]

/-- Alternatives with bars between them can stand on lines of their own: one text is read just if
the other is, and then as the same grammar. -/
theorem read_eq_ok_of_separate_alternatives {text text' : String} {rs : List String}
    {before after : List (List Char)} (hlhs : IsLhs lhs.toList) (hstart : lhs ≠ "%start")
    (hdeclaration : lhs ≠ "%nonterm") (hne : rs ≠ []) (hclosed : ∀ r ∈ rs, Closed r.toList)
    (htext : trimmedLines text =
      before ++ trim (ruleText lhs (" | ".intercalate rs)).toList :: after)
    (htext' : trimmedLines text' =
      before ++ rs.map (fun r ↦ trim (ruleText lhs r).toList) ++ after) (g : Grammar) :
    read text = .ok g ↔ read text' = .ok g := by
  have hkind := lineKind_ruleText hlhs hstart hdeclaration
  rw [List.append_cons] at htext
  have hsame : builderOf? text = builderOf? text' :=
    builderOf?_eq_of_rules? (List.forall_mem_singleton.2 (hkind _))
      (List.forall_mem_map.2 fun r _ ↦ hkind r) (rules?_map_ruleText hlhs hne hclosed).symm htext
      htext'
  rw [read_eq_ok_iff, read_eq_ok_iff, hsame]

/-- The first alternative of `L` ends in a quoted bar, and the second one is a quote.  The three are
the same on one line and on three, between a comment and the start symbol. -/
theorem read_eq_ok_of_separate_alternatives_quoted_bar :
    let g : Grammar := ⟨["L"], [⟨⟨0⟩, [.term 'a', .term '|']⟩, ⟨⟨0⟩, [.term '\'']⟩,
      ⟨⟨0⟩, [.nonterm ⟨0⟩, .term 'b']⟩], ⟨0⟩⟩
    read "# L\r\nL -> 'a|' | \"'\" | L b\r\n%start L" = .ok g ∧
      read "# L\r\nL -> 'a|'\r\nL -> \"'\"\r\nL -> L b\r\n%start L" = .ok g := by
  intro g
  have hline : read "# L\r\nL -> 'a|' | \"'\" | L b\r\n%start L" = .ok g := by decide +kernel
  have htext : trimmedLines "# L\r\nL -> 'a|' | \"'\" | L b\r\n%start L" = ["# L".toList] ++
      trim (ruleText "L" (" | ".intercalate ["'a|'", "\"'\"", "L b"])).toList ::
        ["%start L".toList] := by decide +kernel
  have htext' : trimmedLines "# L\r\nL -> 'a|'\r\nL -> \"'\"\r\nL -> L b\r\n%start L" =
      ["# L".toList] ++ ["'a|'", "\"'\"", "L b"].map (fun r ↦ trim (ruleText "L" r).toList) ++
        ["%start L".toList] := by decide +kernel
  have hclosed : ∀ r ∈ ["'a|'", "\"'\"", "L b"], Closed r.toList := by
    have htokens : tokens? "'a|'".toList = some [.quoted ['a', '|']] ∧
        tokens? "\"'\"".toList = some [.quoted ['\'']] ∧
        tokens? "L b".toList = some [.word ['L'], .word ['b']] := by decide +kernel
    simp only [List.forall_mem_cons]
    exact ⟨closed_of_tokens? htokens.1, closed_of_tokens? htokens.2.1,
      closed_of_tokens? htokens.2.2, List.forall_mem_nil _⟩
  have hlhs : IsLhs "L".toList := ⟨by decide, by decide, by decide⟩
  exact ⟨hline, (read_eq_ok_of_separate_alternatives hlhs (by decide) (by decide) (by decide)
    hclosed htext htext' g).1 hline⟩

end ContextFree.Notation
