import ContextFree.Proofs.Notation.Pattern

/-!
# Scanning a right-hand side

What reads a right-hand side from left to right, adding to the alternatives that are finished and
to the current one, is determined by what it does with a blank, a bar, a quote and a word
(`Reads`).  Three definitions do the same: `alternatives?`, which looks ahead for the end of a
token; a machine that takes one character after the other and remembers whether it is in a word or
behind an open quote (`scan`); and a search for the matches of `tokenPattern`, which are taken one
by one (`collect`).

From the tokens follows what the alternatives hold: outside quotes every character but a blank, and
between quotes every character.
-/

namespace ContextFree.Notation

open ContextFree.Text

variable {finished : List (List RawSymbol)} {current : List RawSymbol} {c q : Char}
  {s l : List Char} {t : Token} {ts : List Token}

/-! ## Reading from left to right -/

/-- A function of the finished alternatives, the current one and the rest of the text that treats
blanks, bars, quotes and words as they are treated in a right-hand side. -/
structure Reads (F : List (List RawSymbol) → List RawSymbol → List Char →
    Option (List (List RawSymbol))) : Prop where
  nil : ∀ finished current, F finished current [] = some (finished ++ [current])
  blank : ∀ finished current {c : Char} (s : List Char), isBlank c = true →
    F finished current (c :: s) = F finished current s
  bar : ∀ finished current (s : List Char),
    F finished current ('|' :: s) = F (finished ++ [current]) [] s
  quoted : ∀ finished current {q : Char} {l : List Char} (s : List Char), isQuote q = true →
    q ∉ l → F finished current (q :: (l ++ q :: s)) = F finished (current ++ l.map .term) s
  unclosed : ∀ finished current {q : Char} {s : List Char}, isQuote q = true → q ∉ s →
    F finished current (q :: s) = none
  word : ∀ finished current {c : Char} (s : List Char), isWordChar c = true →
    F finished current (c :: s) =
      F finished (current ++ [.word (String.ofList (c :: s.takeWhile isWordChar))])
        (s.dropWhile isWordChar)

/-- There is one way to read. -/
theorem Reads.unique {F G} (hF : Reads F) (hG : Reads G) (finished : List (List RawSymbol))
    (current : List RawSymbol) (s : List Char) : F finished current s = G finished current s := by
  fun_induction tokens? s generalizing finished current with
  | case1 => rw [hF.nil, hG.nil]
  | case2 c s hblank ih => rw [hF.blank _ _ s hblank, hG.blank _ _ s hblank, ih]
  | case3 s _ ih => rw [hF.bar, hG.bar, ih]
  | case4 c s _ _ hquote hsplit =>
    have hs := splitAt?_eq_none_iff.1 hsplit
    rw [hF.unclosed _ _ hquote hs, hG.unclosed _ _ hquote hs]
  | case5 c s _ _ hquote l r hsplit ih =>
    obtain ⟨rfl, hl⟩ := splitAt?_eq_some_iff.1 hsplit
    rw [hF.quoted _ _ r hquote hl, hG.quoted _ _ r hquote hl, ih]
  | case6 c s hblank hbar hquote ih =>
    have hword : isWordChar c = true := by simp_all [isWordChar]
    rw [hF.word _ _ s hword, hG.word _ _ s hword, ih]

/-- Alternatives behind the finished ones, the first of them as the end of the current one. -/
def goOn (finished : List (List RawSymbol)) (current : List RawSymbol) :
    List (List RawSymbol) → List (List RawSymbol)
  | [] => finished ++ [current]
  | a :: as => finished ++ (current ++ a) :: as

theorem goOn_alternatives_bar (finished : List (List RawSymbol)) (current : List RawSymbol)
    (ts : List Token) : goOn finished current (Token.alternatives (.bar :: ts)) =
      goOn (finished ++ [current]) [] (Token.alternatives ts) := by
  obtain ⟨a, as, hcons⟩ := List.exists_cons_of_ne_nil (alternatives_ne_nil ts)
  simp [Token.alternatives, goOn, hcons]

theorem goOn_alternatives_cons (ht : t ≠ .bar) (finished : List (List RawSymbol))
    (current : List RawSymbol) (ts : List Token) :
    goOn finished current (Token.alternatives (t :: ts)) =
      goOn finished (current ++ t.symbols) (Token.alternatives ts) := by
  obtain ⟨a, as, hts, hcons⟩ := exists_alternatives_cons ht ts
  simp [goOn, hts, hcons]

theorem goOn_nil_nil (ts : List Token) :
    goOn [] [] (Token.alternatives ts) = Token.alternatives ts := by
  obtain ⟨a, as, hcons⟩ := List.exists_cons_of_ne_nil (alternatives_ne_nil ts)
  rw [hcons]
  rfl

theorem reads_alternatives? :
    Reads fun finished current s ↦ (alternatives? s).map (goOn finished current) where
  nil finished current := by simp [alternatives?, Token.alternatives, goOn]
  blank finished current c s hc := by simp only [alternatives?, tokens?_blank hc]
  bar finished current s := by
    simp [alternatives?, tokens?_bar, Function.comp_def, goOn_alternatives_bar]
  quoted finished current q l s hq hl := by
    have hsplit : splitAt? q (l ++ q :: s) = some (l, s) := splitAt?_eq_some_iff.2 ⟨rfl, hl⟩
    simp [alternatives?, tokens?_quote hq hsplit, Function.comp_def, goOn_alternatives_cons,
      Token.symbols]
  unclosed finished current q s hq hs := by simp [alternatives?, tokens?_open hq hs]
  word finished current c s hc := by
    simp [alternatives?, tokens?_cons_of_isWordChar hc, Function.comp_def, goOn_alternatives_cons,
      Token.symbols]

/-- What reads as `alternatives?` does gives the alternatives. -/
theorem Reads.eq_alternatives? {F} (hF : Reads F) (s : List Char) :
    F [] [] s = alternatives? s := by
  rw [hF.unique reads_alternatives?, alternatives?, Option.map_map]
  congr 1
  funext ts
  exact goOn_nil_nil ts

/-! ## One character after the other -/

/-- Where a scanner stands: between two tokens, in a word, or behind a quote that is open; with the
characters of the word, or those behind the quote. -/
inductive Scan.Mode where
  | between
  | inWord (w : List Char)
  | inQuote (q : Char) (l : List Char)

/-- The state of a scanner. -/
structure Scan where
  finished : List (List RawSymbol)
  current : List RawSymbol
  mode : Scan.Mode

namespace Scan

variable {σ : Scan}

def start : Scan := ⟨[], [], .between⟩

/-- A character with which no token goes on, outside quotes. -/
def outside (σ : Scan) (c : Char) : Scan :=
  if isBlank c then { σ with mode := .between }
  else if c = '|' then ⟨σ.finished ++ [σ.current], [], .between⟩
  else if isQuote c then { σ with mode := .inQuote c [] }
  else { σ with mode := .inWord [c] }

/-- The word in which the scanner stands is complete. -/
def endWord (σ : Scan) (w : List Char) : Scan :=
  ⟨σ.finished, σ.current ++ [.word (String.ofList w)], .between⟩

/-- Takes a character. -/
def step (σ : Scan) (c : Char) : Scan :=
  match σ.mode with
  | .between => σ.outside c
  | .inWord w => if isWordChar c then { σ with mode := .inWord (w ++ [c]) }
      else (σ.endWord w).outside c
  | .inQuote q l =>
      if c = q then ⟨σ.finished, σ.current ++ l.map .term, .between⟩
      else { σ with mode := .inQuote q (l ++ [c]) }

/-- The state behind a text. -/
def after (s : List Char) : Scan := s.foldl step start

/-- The quote that is open. -/
def quote? (σ : Scan) : Option Char :=
  match σ.mode with
  | .inQuote q _ => some q
  | _ => none

/-- The alternatives at the end of the text, if no quote is open. -/
def result? (σ : Scan) : Option (List (List RawSymbol)) :=
  match σ.mode with
  | .between => some (σ.finished ++ [σ.current])
  | .inWord w => some (σ.finished ++ [(σ.endWord w).current])
  | .inQuote _ _ => none

theorem result?_eq_none_iff : σ.result? = none ↔ σ.quote? ≠ none := by
  rcases σ with ⟨_, _, _ | _ | _⟩ <;> simp [result?, quote?]

/-- Behind a quote everything else is taken verbatim. -/
theorem foldl_step_inQuote (hl : q ∉ l) (l' s : List Char) :
    (l ++ s).foldl step ⟨finished, current, .inQuote q l'⟩ =
      s.foldl step ⟨finished, current, .inQuote q (l' ++ l)⟩ := by
  induction l generalizing l' with
  | nil => simp
  | cons c l ih =>
    simp only [List.mem_cons, not_or] at hl
    simp [step, Ne.symm hl.1, ih hl.2]

/-- A word goes on as long as it can. -/
theorem result?_foldl_step_inWord (w s : List Char) :
    (s.foldl step ⟨finished, current, .inWord w⟩).result? =
      ((s.dropWhile isWordChar).foldl step ⟨finished,
        current ++ [.word (String.ofList (w ++ s.takeWhile isWordChar))], .between⟩).result? := by
  induction s generalizing w with
  | nil => simp [result?, endWord]
  | cons d s ih =>
    by_cases hd : isWordChar d = true
    · simp [step, hd, ih]
    · simp [step, hd, endWord]

end Scan

/-- The alternatives of a right-hand side, character by character. -/
def scan (s : List Char) : Option (List (List RawSymbol)) := (Scan.after s).result?

open Scan in
theorem reads_scan :
    Reads fun finished current s ↦ (s.foldl step ⟨finished, current, .between⟩).result? where
  nil finished current := rfl
  blank finished current c s hc := by simp [step, outside, hc]
  bar finished current s := by simp +decide [step, outside]
  quoted finished current q l s hq hl := by
    simp [step, outside, isBlank_eq_false_of_isQuote hq, ne_bar_of_isQuote hq, hq,
      foldl_step_inQuote hl]
  unclosed finished current q s hq hs := by
    have hrun : s.foldl step ⟨finished, current, .inQuote q []⟩ =
        ⟨finished, current, .inQuote q s⟩ := by simpa using foldl_step_inQuote hs [] []
    simp [step, outside, isBlank_eq_false_of_isQuote hq, ne_bar_of_isQuote hq, hq, hrun, result?]
  word finished current c s hc := by
    have hquote := isQuote_eq_false_of_isWordChar hc
    simp [step, outside, isBlank_eq_false_of_isWordChar hc, ne_bar_of_isWordChar hc, hquote,
      result?_foldl_step_inWord]

/-! ## Match by match -/

/-- Takes the matches of `tokenPattern` one by one. -/
def collect (finished : List (List RawSymbol)) (current : List RawSymbol) :
    List (Match Group) → Option (List (List RawSymbol))
  | [] => some (finished ++ [current])
  | m :: ms =>
    match (m.group? .single).or (m.group? .double) with
    | some l => collect finished (current ++ l.map .term) ms
    | none =>
      if (m.group? .bar).isSome then collect (finished ++ [current]) [] ms
      else if (m.group? .bad).isSome then none
      else match m.group? .bare with
        | some w => collect finished (current ++ [.word (String.ofList w)]) ms
        | none => collect finished current ms

theorem collect_quotedMatch (q : Char) (l r : List Char) (ms : List (Match Group)) :
    collect finished current (quotedMatch q (quoteGroup q) l r :: ms) =
      collect finished (current ++ l.map .term) ms := by
  by_cases hq : q = '\''
  · rw [quotedMatch, quoteGroup, if_pos hq]
    rfl
  · rw [quotedMatch, quoteGroup, if_neg hq]
    rfl

theorem reads_collect :
    Reads fun finished current s ↦ collect finished current (tokenPattern.findAll s) where
  nil finished current := by rw [Pattern.findAll_nil, collect]
  blank finished current c s hc := by
    rw [Pattern.findAll_cons_of_tries_eq_nil (tries_tokenPattern_blank hc)]
  bar finished current s := by
    have hfirst := congrArg List.head? (tries_tokenPattern_bar s)
    rw [Pattern.findAll_of_head?_eq_some hfirst (by simp)]
    rfl
  quoted finished current q l s hq hl := by
    have hfirst := congrArg List.head? (tries_tokenPattern_quote hq (l ++ q :: s))
    rw [splitAt?_eq_some_iff.2 ⟨rfl, hl⟩] at hfirst
    rw [Pattern.findAll_of_head?_eq_some hfirst (by simp [quotedMatch]), collect_quotedMatch]
    rfl
  unclosed finished current q s hq hs := by
    have hfirst := congrArg List.head? (tries_tokenPattern_quote hq s)
    rw [splitAt?_eq_none_iff.2 hs] at hfirst
    rw [Pattern.findAll_of_head?_eq_some hfirst (by simp)]
    rfl
  word finished current c s hc := by
    rw [Pattern.findAll_of_head?_eq_some (head?_tries_tokenPattern_word hc s) (by simp)]
    rfl

/-! ## Quotes that are open -/

/-- The scanner meets a quote outside quotes, and no quote of its kind follows. -/
def MeetsUnclosedQuote (s : List Char) : Prop :=
  ∃ before q after, s = before ++ q :: after ∧ (Scan.after before).quote? = none ∧
    isQuote q = true ∧ q ∉ after

/-- Every quote is closed just if the scanner ends outside quotes. -/
theorem closed_iff_quote?_eq_none : Closed s ↔ (Scan.after s).quote? = none := by
  have hscan : alternatives? s = none ↔ (Scan.after s).quote? ≠ none := by
    rw [← reads_scan.eq_alternatives?]
    exact Scan.result?_eq_none_iff
  rw [← not_iff_not, ← Ne, ← hscan]
  constructor
  · intro hopen
    by_contra hsome
    obtain ⟨as, has⟩ := Option.ne_none_iff_exists'.1 hsome
    obtain ⟨ts, hts, -⟩ := Option.map_eq_some_iff.1 has
    exact hopen (closed_of_tokens? hts)
  · intro hnone hclosed
    obtain ⟨as, has⟩ := hclosed.exists_alternatives?
    simp [hnone] at has

theorem opensQuote_iff_meetsUnclosedQuote : OpensQuote s ↔ MeetsUnclosedQuote s := by
  simp only [OpensQuote, MeetsUnclosedQuote, closed_iff_quote?_eq_none]

/-! ## What the alternatives hold -/

/-- The characters outside quotes; the quote that is open comes first. -/
def outsideQuotes : Option Char → List Char → List Char
  | _, [] => []
  | none, c :: s => if isQuote c then outsideQuotes (some c) s else c :: outsideQuotes none s
  | some q, c :: s => if c = q then outsideQuotes none s else outsideQuotes (some q) s

/-- The characters between quotes; the quote that is open comes first. -/
def insideQuotes : Option Char → List Char → List Char
  | _, [] => []
  | none, c :: s => if isQuote c then insideQuotes (some c) s else insideQuotes none s
  | some q, c :: s => if c = q then insideQuotes none s else c :: insideQuotes (some q) s

theorem outsideQuotes_some (hl : q ∉ l) (s : List Char) :
    outsideQuotes (some q) (l ++ q :: s) = outsideQuotes none s := by
  induction l with
  | nil => simp [outsideQuotes]
  | cons c l ih =>
    simp only [List.mem_cons, not_or] at hl
    simp [outsideQuotes, Ne.symm hl.1, ih hl.2]

theorem insideQuotes_some (hl : q ∉ l) (s : List Char) :
    insideQuotes (some q) (l ++ q :: s) = l ++ insideQuotes none s := by
  induction l with
  | nil => simp [insideQuotes]
  | cons c l ih =>
    simp only [List.mem_cons, not_or] at hl
    simp [insideQuotes, Ne.symm hl.1, ih hl.2]

theorem outsideQuotes_append (hl : ∀ c ∈ l, isQuote c = false) (s : List Char) :
    outsideQuotes none (l ++ s) = l ++ outsideQuotes none s := by
  induction l with
  | nil => rfl
  | cons c l ih =>
    obtain ⟨hc, hl⟩ := List.forall_mem_cons.1 hl
    simp [outsideQuotes, hc, ih hl]

theorem insideQuotes_append (hl : ∀ c ∈ l, isQuote c = false) (s : List Char) :
    insideQuotes none (l ++ s) = insideQuotes none s := by
  induction l with
  | nil => rfl
  | cons c l ih =>
    obtain ⟨hc, hl⟩ := List.forall_mem_cons.1 hl
    simp [insideQuotes, hc, ih hl]

/-- The characters of a token that stand outside quotes. -/
def Token.outside : Token → List Char
  | .quoted _ => []
  | .bar => ['|']
  | .word w => w

/-- The characters of a token that stand between quotes. -/
def Token.inside : Token → List Char
  | .quoted l => l
  | .bar => []
  | .word _ => []

/-- The tokens hold every character, blanks outside quotes apart. -/
theorem flatMap_of_tokens? (h : tokens? s = some ts) :
    ts.flatMap Token.outside = (outsideQuotes none s).filter (!isBlank ·) ∧
      ts.flatMap Token.inside = insideQuotes none s := by
  fun_induction tokens? s generalizing ts with
  | case1 =>
    cases h
    exact ⟨rfl, rfl⟩
  | case2 c s hc ih =>
    simp [outsideQuotes, insideQuotes, isQuote_eq_false_of_isBlank hc, hc, ih h]
  | case3 s hc ih =>
    obtain ⟨ts', hts, rfl⟩ := Option.map_eq_some_iff.1 h
    simp_all +decide [outsideQuotes, insideQuotes, Token.outside, Token.inside]
  | case4 => cases h
  | case5 c s _ _ hquote l r hsplit ih =>
    obtain ⟨ts', hts, rfl⟩ := Option.map_eq_some_iff.1 h
    obtain ⟨rfl, hl⟩ := splitAt?_eq_some_iff.1 hsplit
    simp [outsideQuotes, insideQuotes, hquote, outsideQuotes_some hl, insideQuotes_some hl,
      Token.outside, Token.inside, ih hts]
  | case6 c s hblank hbar hquote ih =>
    obtain ⟨ts', hts, rfl⟩ := Option.map_eq_some_iff.1 h
    have hword := isQuote_eq_false_of_mem_word (by simpa using hquote) s
    have hsplit : c :: s = (c :: s.takeWhile isWordChar) ++ s.dropWhile isWordChar := by simp
    have hkept : (c :: s.takeWhile isWordChar).filter (!isBlank ·) =
        c :: s.takeWhile isWordChar := by
      refine List.filter_eq_self.2 (List.forall_mem_cons.2 ⟨by simpa using hblank, ?_⟩)
      intro d hd
      simp [isBlank_eq_false_of_isWordChar (List.all_eq_true.1 List.all_takeWhile d hd)]
    rw [hsplit, outsideQuotes_append hword, insideQuotes_append hword, List.filter_append, hkept,
      ← (ih hts).1, ← (ih hts).2]
    exact ⟨rfl, rfl⟩

/-- The characters of a symbol that is a word. -/
def wordChars : RawSymbol → List Char
  | .word w => w.toList
  | _ => []

/-- The character of a symbol that is a terminal. -/
def termChars : RawSymbol → List Char
  | .term c => [c]
  | _ => []

theorem flatMap_wordChars_symbols (ht : t ≠ .bar) : t.symbols.flatMap wordChars = t.outside := by
  cases t with
  | bar => exact absurd rfl ht
  | quoted l => simp [Token.symbols, Token.outside, wordChars, List.flatMap_map]
  | word w => simp [Token.symbols, Token.outside, wordChars]

theorem flatMap_termChars_symbols (t : Token) : t.symbols.flatMap termChars = t.inside := by
  cases t <;> simp [Token.symbols, Token.inside, termChars, List.flatMap_map]

/-- With a bar between any two, the words of the alternatives are the words and the bars. -/
theorem intercalate_wordChars (ts : List Token) :
    ['|'].intercalate ((Token.alternatives ts).map (·.flatMap wordChars)) =
      ts.flatMap Token.outside := by
  induction ts with
  | nil => rfl
  | cons t ts ih =>
    by_cases ht : t = .bar
    · obtain ⟨a, as, hts⟩ := List.exists_cons_of_ne_nil (alternatives_ne_nil ts)
      rw [ht, List.flatMap_cons, ← ih, Token.alternatives, hts, List.map_cons, List.map_cons,
        List.intercalate_cons_cons]
      rfl
    · obtain ⟨a, as, hts, hcons⟩ := exists_alternatives_cons ht ts
      rw [hcons, List.flatMap_cons, ← ih, hts, List.map_cons, List.map_cons, List.flatMap_append,
        intercalate_append_cons, flatMap_wordChars_symbols ht]

theorem count_bar_flatMap (h : ∀ w, .word w ∈ ts → IsWord w) :
    (ts.flatMap Token.outside).count '|' = ts.count .bar := by
  induction ts with
  | nil => rfl
  | cons t ts ih =>
    have htoken : t.outside.count '|' = if t = .bar then 1 else 0 := by
      cases t with
      | bar => rfl
      | quoted l => rfl
      | word w => exact List.count_eq_zero.2 ((h w (.head _)).notMem (by decide))
    rw [List.flatMap_cons, List.count_append, ih fun w hw ↦ h w (.tail _ hw), htoken,
      List.count_cons, Nat.add_comm]
    simp

/-- The bars outside quotes are those that are tokens. -/
theorem count_bar_of_tokens? (h : tokens? s = some ts) :
    (outsideQuotes none s).count '|' = ts.count .bar := by
  have hword : ∀ w, .word w ∈ ts → IsWord w := fun w hw ↦ isFrom_of_mem_tokens? h _ hw
  rw [← count_bar_flatMap hword, (flatMap_of_tokens? h).1, List.count_filter (by decide)]

/-! ## Right-hand sides -/

/-- The error of a quote that is not closed is about the right-hand side only. -/
theorem ruleOfTrimmed_eq_unterminatedQuote_iff {number : Nat} {line lhs r : List Char}
    (h : splitRule? line = some (lhs, r)) :
    Line.ruleOfTrimmed number line = .error (.unterminatedQuote number) ↔
      alternatives? r = none := by
  rw [ruleOfTrimmed_eq_error_iff]
  simp [h]

/-- The alternatives are what a scanner finds that takes one character after the other, and what
the matches of the pattern of tokens give.  There are none just if a quote is opened that no quote
of its kind follows, and this is the error of a rule with the right-hand side.  Otherwise there is
one alternative more than there are bars outside quotes.  What stands outside quotes and is no
blank is in a word, or is a bar between two alternatives; what stands between quotes is in the
terminals.  A text behind a further bar adds its alternatives, if it has any. -/
theorem alternatives_exact (r : List Char) :
    alternatives? r = scan r ∧
    alternatives? r = collect [] [] (tokenPattern.findAll r) ∧
    (alternatives? r = none ↔ MeetsUnclosedQuote r) ∧
    (∀ number line lhs, splitRule? line = some (lhs, r) →
      (Line.ruleOfTrimmed number line = .error (.unterminatedQuote number) ↔
        alternatives? r = none)) ∧
    ∀ as, alternatives? r = some as →
      as.length = 1 + (outsideQuotes none r).count '|' ∧
      ['|'].intercalate (as.map (·.flatMap wordChars)) =
        (outsideQuotes none r).filter (!isBlank ·) ∧
      as.flatten.flatMap termChars = insideQuotes none r ∧
      ∀ r', alternatives? (r ++ '|' :: r') = (alternatives? r').map (as ++ ·) := by
  refine ⟨(reads_scan.eq_alternatives? r).symm, (reads_collect.eq_alternatives? r).symm,
    alternatives?_eq_none_iff.trans opensQuote_iff_meetsUnclosedQuote,
    fun _ _ _ ↦ ruleOfTrimmed_eq_unterminatedQuote_iff, fun as has ↦ ?_⟩
  obtain ⟨ts, hts, rfl⟩ := Option.map_eq_some_iff.1 has
  obtain ⟨houtside, hinside⟩ := flatMap_of_tokens? hts
  refine ⟨?_, ?_, ?_, alternatives?_append_bar has⟩
  · rw [length_alternatives, count_bar_of_tokens? hts]
  · rw [intercalate_wordChars, houtside]
  · rw [flatten_alternatives, List.flatMap_assoc, ← hinside]
    exact List.flatMap_congr fun t _ ↦ flatMap_termChars_symbols t

/-- A quote of the other kind, a blank and a bar between quotes, and tokens without blanks between
them. -/
theorem alternatives_exact_no_blanks :
    let r := " \"a' |\"bc'|'|d".toList
    let as : List (List RawSymbol) := [[.term 'a', .term '\'', .term ' ', .term '|', .word "bc",
      .term '|'], [.word "d"]]
    splitRule? "Q -> \"a' |\"bc'|'|d".toList = some (['Q'], r) ∧
      (Line.ruleOfTrimmed 2 "Q -> \"a' |\"bc'|'|d".toList = .error (.unterminatedQuote 2) ↔
        alternatives? r = none) ∧
      alternatives? r = some as ∧ as.length = 1 + (outsideQuotes none r).count '|' ∧
      ['|'].intercalate (as.map (·.flatMap wordChars)) =
        (outsideQuotes none r).filter (!isBlank ·) ∧
      as.flatten.flatMap termChars = insideQuotes none r ∧
      alternatives? (r ++ '|' :: "e \"".toList) = none := by
  intro r as
  have hsplit : splitRule? "Q -> \"a' |\"bc'|'|d".toList = some (['Q'], r) := by decide +kernel
  have has : alternatives? r = some as := by
    simp only [r, as]
    decide +kernel
  have hopen : alternatives? "e \"".toList = none := by decide +kernel
  have hexact := alternatives_exact r
  have hholds := hexact.2.2.2.2 as has
  refine ⟨hsplit, hexact.2.2.2.1 2 _ _ hsplit, has, hholds.1, hholds.2.1, hholds.2.2.1, ?_⟩
  rw [hholds.2.2.2, hopen, Option.map_none]

end ContextFree.Notation
