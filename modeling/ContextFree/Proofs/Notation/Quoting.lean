import ContextFree.Proofs.Notation.Readable

/-!
# Quotes in a right-hand side

A right-hand side is made of characters outside quotes and of quoted runs (`Quoting`).  It has
tokens just if it is: otherwise some quote is opened behind such a text, and never closed
(`tokens?_eq_none_iff`).  A bar outside quotes ends an alternative, and an alternative has no
symbols just if it is made of blanks and of quotes with nothing in between
(`nil_mem_alternatives_iff`).
-/

namespace ContextFree.Notation

open ContextFree.Text

variable {s t : List Char} {ts : List Token} {c q : Char}

/-! ## Quoted runs -/

/-- A text made of characters outside quotes, which are `Plain`, and of what stands `Inside`
quotes.  A run goes up to the next quote of its kind. -/
inductive Quoting (Plain : Char → Prop) (Inside : List Char → Prop) : List Char → Prop where
  | nil : Quoting Plain Inside []
  | plain {c : Char} {s : List Char} (hquote : isQuote c = false) (hc : Plain c)
      (hs : Quoting Plain Inside s) : Quoting Plain Inside (c :: s)
  | quoted {q : Char} {l s : List Char} (hquote : isQuote q = true) (hclosed : q ∉ l)
      (hl : Inside l) (hs : Quoting Plain Inside s) : Quoting Plain Inside (q :: (l ++ q :: s))

/-- Every quote is closed. -/
def Closed (s : List Char) : Prop := Quoting (fun _ ↦ True) (fun _ ↦ True) s

/-- Every quote is closed, and there is no bar outside quotes. -/
def BarFree (s : List Char) : Prop := Quoting (· ≠ '|') (fun _ ↦ True) s

/-- There is nothing but blanks, and quotes with nothing in between. -/
def Silent (s : List Char) : Prop := Quoting (isBlank · = true) (· = []) s

/-- Some quote is not closed: no quote of its kind follows. -/
def OpensQuote (s : List Char) : Prop :=
  ∃ before q after, s = before ++ q :: after ∧ Closed before ∧ isQuote q = true ∧ q ∉ after

/-- Split at the bars outside quotes, the text has a part that says nothing. -/
def HasSilentPart (s : List Char) : Prop :=
  ∃ parts, s = ['|'].intercalate parts ∧ (∀ p ∈ parts, BarFree p) ∧ ∃ p ∈ parts, Silent p

section Inversion

variable {Plain : Char → Prop} {Inside : List Char → Prop}

theorem quoting_cons_iff (hc : isQuote c = false) :
    Quoting Plain Inside (c :: s) ↔ Plain c ∧ Quoting Plain Inside s := by
  constructor
  · intro h
    cases h with
    | plain _ hplain hs => exact ⟨hplain, hs⟩
    | quoted hquote => simp [hc] at hquote
  · exact fun ⟨hplain, hs⟩ ↦ .plain hc hplain hs

theorem quoting_append_iff {l : List Char} (hl : ∀ c ∈ l, isQuote c = false) :
    Quoting Plain Inside (l ++ s) ↔ (∀ c ∈ l, Plain c) ∧ Quoting Plain Inside s := by
  induction l with
  | nil => simp
  | cons c l ih =>
    obtain ⟨hc, hl⟩ := List.forall_mem_cons.1 hl
    rw [List.cons_append, quoting_cons_iff hc, ih hl, List.forall_mem_cons, and_assoc]

theorem quoting_quoted_iff {l : List Char} (hq : isQuote q = true) (hl : q ∉ l) :
    Quoting Plain Inside (q :: (l ++ q :: s)) ↔ Inside l ∧ Quoting Plain Inside s := by
  constructor
  · generalize htext : q :: (l ++ q :: s) = text
    intro h
    cases h with
    | nil => cases htext
    | plain hquote =>
      obtain ⟨rfl, -⟩ := List.cons.inj htext
      simp [hq] at hquote
    | quoted hquote hclosed hinside hs =>
      obtain ⟨rfl, hrest⟩ := List.cons.inj htext
      -- both are split at the first quote of the kind
      have hsplit : splitAt? q (l ++ q :: s) = some (l, s) := splitAt?_eq_some_iff.2 ⟨rfl, hl⟩
      rw [splitAt?_eq_some_iff.2 ⟨hrest, hclosed⟩] at hsplit
      cases hsplit
      exact ⟨hinside, hs⟩
  · exact fun ⟨hinside, hs⟩ ↦ .quoted hq hl hinside hs

theorem Quoting.mono {Plain' : Char → Prop} {Inside' : List Char → Prop}
    (hPlain : ∀ c, Plain c → Plain' c) (hInside : ∀ l, Inside l → Inside' l)
    (hs : Quoting Plain Inside s) : Quoting Plain' Inside' s := by
  induction hs with
  | nil => exact .nil
  | plain hquote hc _ ih => exact .plain hquote (hPlain _ hc) ih
  | quoted hquote hclosed hl _ ih => exact .quoted hquote hclosed (hInside _ hl) ih

theorem Quoting.append (hs : Quoting Plain Inside s) (ht : Quoting Plain Inside t) :
    Quoting Plain Inside (s ++ t) := by
  induction hs with
  | nil => exact ht
  | plain hquote hc _ ih => exact .plain hquote hc ih
  | quoted hquote hclosed hl _ ih => simpa using Quoting.quoted hquote hclosed hl ih

/-! ## Tokens of quoted runs -/

/-- The characters of a token stand where they may. -/
def Token.Fits (Plain : Char → Prop) (Inside : List Char → Prop) : Token → Prop
  | .quoted l => Inside l
  | .bar => Plain '|'
  | .word w => ∀ c ∈ w, Plain c

theorem isQuote_eq_false_of_isBlank (h : isBlank c = true) : isQuote c = false := by
  rw [← Bool.not_eq_true]
  intro hquote
  simp [isBlank_eq_false_of_isQuote hquote] at h

theorem isQuote_eq_false_of_isWordChar (h : isWordChar c = true) : isQuote c = false := by
  simp_all [isWordChar]

theorem isQuote_eq_false_of_mem_word (hc : isQuote c = false) (s : List Char) :
    ∀ d ∈ c :: s.takeWhile isWordChar, isQuote d = false :=
  List.forall_mem_cons.2 ⟨hc, fun d hd ↦
    isQuote_eq_false_of_isWordChar (List.all_eq_true.1 List.all_takeWhile d hd)⟩

/-- Where blanks are plain, the tokens tell what a text is made of. -/
theorem quoting_iff (hblank : ∀ c, isBlank c = true → Plain c) (h : tokens? s = some ts) :
    Quoting Plain Inside s ↔ ∀ t ∈ ts, t.Fits Plain Inside := by
  fun_induction tokens? s generalizing ts with
  | case1 =>
    cases h
    exact iff_of_true .nil (List.forall_mem_nil _)
  | case2 c s hc ih =>
    rw [quoting_cons_iff (isQuote_eq_false_of_isBlank hc), ih h]
    exact and_iff_right (hblank c hc)
  | case3 s _ ih =>
    obtain ⟨ts', hts, rfl⟩ := Option.map_eq_some_iff.1 h
    rw [quoting_cons_iff (by decide), ih hts, List.forall_mem_cons]
    rfl
  | case4 => cases h
  | case5 c s _ _ hquote l r hsplit ih =>
    obtain ⟨ts', hts, rfl⟩ := Option.map_eq_some_iff.1 h
    obtain ⟨rfl, hl⟩ := splitAt?_eq_some_iff.1 hsplit
    rw [quoting_quoted_iff hquote hl, ih hts, List.forall_mem_cons]
    rfl
  | case6 c s hc hbar hquote ih =>
    obtain ⟨ts', hts, rfl⟩ := Option.map_eq_some_iff.1 h
    have hword := isQuote_eq_false_of_mem_word (by simpa using hquote) s
    have hsplit : c :: s = (c :: s.takeWhile isWordChar) ++ s.dropWhile isWordChar := by simp
    rw [hsplit, quoting_append_iff hword, ih hts]
    exact (List.forall_mem_cons (p := Token.Fits Plain Inside)
      (a := .word (c :: s.takeWhile isWordChar))).symm

end Inversion

theorem closed_of_tokens? (h : tokens? s = some ts) : Closed s := by
  refine (quoting_iff (fun _ _ ↦ trivial) h).2 fun t _ ↦ ?_
  cases t with
  | quoted l => trivial
  | bar => trivial
  | word w => exact fun _ _ ↦ trivial

theorem barFree_iff (h : tokens? s = some ts) : BarFree s ↔ .bar ∉ ts := by
  rw [BarFree, quoting_iff (fun _ ↦ ne_bar_of_isBlank) h]
  constructor
  · exact fun hfits hbar ↦ hfits _ hbar rfl
  · intro hbar t ht
    cases t with
    | quoted l => trivial
    | bar => exact absurd ht hbar
    | word w =>
      have hword : IsWord w := isFrom_of_mem_tokens? h _ ht
      exact fun c hc heq ↦ hword.notMem (by decide) (heq ▸ hc)

theorem silent_iff (h : tokens? s = some ts) (hbar : .bar ∉ ts) :
    Silent s ↔ ts.flatMap Token.symbols = [] := by
  rw [Silent, quoting_iff (fun _ ↦ id) h, List.flatMap_eq_nil_iff]
  refine forall₂_congr fun t ht ↦ ?_
  cases t with
  | quoted l => simp [Token.Fits, Token.symbols]
  | bar => exact absurd ht hbar
  | word w =>
    obtain ⟨hne, hword⟩ : IsWord w := isFrom_of_mem_tokens? h _ ht
    refine iff_of_false (fun hfits ↦ ?_) (List.cons_ne_nil _ _)
    obtain ⟨c, w, rfl⟩ := List.exists_cons_of_ne_nil hne
    have hc := isBlank_eq_false_of_isWordChar (hword c (.head _))
    simp [hfits c (.head _)] at hc

/-! ## Quotes that are not closed -/

/-- A character outside quotes does not decide whether there are tokens. -/
theorem tokens?_cons_eq_none_iff (hc : isQuote c = false) :
    tokens? (c :: s) = none ↔ tokens? s = none := by
  by_cases hblank : isBlank c = true
  · rw [tokens?_blank hblank]
  by_cases hbar : c = '|'
  · rw [hbar, tokens?_bar, Option.map_eq_none_iff]
  have hword : isWordChar c = true := by simp_all [isWordChar]
  rw [tokens?_cons_of_isWordChar hword, Option.map_eq_none_iff]
  -- the word goes on in the rest
  cases s with
  | nil => rfl
  | cons d s =>
    by_cases hd : isWordChar d = true
    · rw [tokens?_cons_of_isWordChar hd, Option.map_eq_none_iff, List.dropWhile_cons_of_pos hd]
    · rw [List.dropWhile_cons_of_neg hd]

theorem Closed.tokens?_append_eq_none_iff (hs : Closed s) :
    tokens? (s ++ t) = none ↔ tokens? t = none := by
  induction hs with
  | nil => rfl
  | plain hquote _ _ ih => rw [List.cons_append, tokens?_cons_eq_none_iff hquote, ih]
  | @quoted q l s hquote hclosed _ _ ih =>
    have hsplit : splitAt? q (l ++ q :: (s ++ t)) = some (l, s ++ t) :=
      splitAt?_eq_some_iff.2 ⟨rfl, hclosed⟩
    rw [List.cons_append, List.append_assoc, List.cons_append, tokens?_quote hquote hsplit,
      Option.map_eq_none_iff, ih]

theorem OpensQuote.append_left (hs : Closed s) (ht : OpensQuote t) : OpensQuote (s ++ t) := by
  obtain ⟨before, q, after, rfl, hbefore, hq, hafter⟩ := ht
  exact ⟨s ++ before, q, after, by simp, hs.append hbefore, hq, hafter⟩

theorem tokens?_open (hq : isQuote q = true) (hs : q ∉ s) : tokens? (q :: s) = none := by
  have hblank := isBlank_eq_false_of_isQuote hq
  rw [tokens?, if_neg (by simp [hblank]), if_neg (ne_bar_of_isQuote hq), if_pos hq]
  split
  case h_1 => rfl
  case h_2 hsplit => simp [splitAt?_eq_none_iff.2 hs] at hsplit

/-- There are no tokens just if some quote is not closed. -/
theorem tokens?_eq_none_iff : tokens? s = none ↔ OpensQuote s := by
  constructor
  · intro h
    fun_induction tokens? s with
    | case1 => cases h
    | case2 c s hc ih =>
      exact (ih h).append_left (s := [c]) (.plain (isQuote_eq_false_of_isBlank hc) trivial .nil)
    | case3 s _ ih =>
      exact (ih (Option.map_eq_none_iff.1 h)).append_left (s := ['|'])
        (.plain (by decide) trivial .nil)
    | case4 c s _ _ hquote hsplit =>
      exact ⟨[], c, s, rfl, .nil, hquote, splitAt?_eq_none_iff.1 hsplit⟩
    | case5 c s _ _ hquote l r hsplit ih =>
      obtain ⟨rfl, hl⟩ := splitAt?_eq_some_iff.1 hsplit
      have hrest := (ih (Option.map_eq_none_iff.1 h)).append_left
        (.quoted hquote hl trivial .nil)
      simpa using hrest
    | case6 c s hc hbar hquote ih =>
      have hword := isQuote_eq_false_of_mem_word (by simpa using hquote) s
      have hclosed : Closed (c :: s.takeWhile isWordChar) := by
        simpa [Closed] using (quoting_append_iff hword).2 ⟨fun _ _ ↦ trivial, Quoting.nil⟩
      simpa using (ih (Option.map_eq_none_iff.1 h)).append_left hclosed
  · rintro ⟨before, q, after, rfl, hbefore, hq, hafter⟩
    rw [hbefore.tokens?_append_eq_none_iff, tokens?_open hq hafter]

theorem Closed.exists_tokens? (hs : Closed s) : ∃ ts, tokens? s = some ts := by
  refine Option.ne_none_iff_exists'.1 fun hnone ↦ ?_
  rw [← List.append_nil s, hs.tokens?_append_eq_none_iff] at hnone
  simp at hnone

/-! ## Bars and alternatives -/

theorem alternatives?_eq_none_iff : alternatives? s = none ↔ OpensQuote s := by
  rw [alternatives?, Option.map_eq_none_iff, tokens?_eq_none_iff]

theorem Closed.exists_alternatives? (hs : Closed s) : ∃ as, alternatives? s = some as := by
  obtain ⟨ts, hts⟩ := hs.exists_tokens?
  exact ⟨Token.alternatives ts, by rw [alternatives?, hts, Option.map_some]⟩

/-- A bar outside quotes separates the alternatives before it from those behind it. -/
theorem alternatives?_append_bar {as : List (List RawSymbol)} (hs : alternatives? s = some as)
    (t : List Char) : alternatives? (s ++ '|' :: t) = (alternatives? t).map (as ++ ·) := by
  obtain ⟨ts, hts, rfl⟩ := Option.map_eq_some_iff.1 hs
  rw [alternatives?, tokens?_append_of_eq_some hts (by simp +decide), tokens?_bar, Option.map_map,
    Option.map_map, alternatives?, Option.map_map]
  congr 1
  funext ts'
  exact alternatives_append_bar ts ts'

/-- Without a bar there is one alternative. -/
theorem BarFree.exists_alternative (hs : BarFree s) :
    ∃ a, alternatives? s = some [a] ∧ (a = [] ↔ Silent s) := by
  have hclosed : Closed s := hs.mono (fun _ _ ↦ trivial) fun _ ↦ id
  obtain ⟨ts, hts⟩ := hclosed.exists_tokens?
  have hbar := (barFree_iff hts).1 hs
  refine ⟨ts.flatMap Token.symbols, ?_, (silent_iff hts hbar).symm⟩
  rw [alternatives?, hts, Option.map_some, alternatives_of_bar_notMem hbar]

theorem intercalate_append_cons {α : Type} (sep l p : List α) (ps : List (List α)) :
    sep.intercalate ((l ++ p) :: ps) = l ++ sep.intercalate (p :: ps) := by
  cases ps <;> simp [List.intercalate_cons_cons]

/-- Closed texts are split at their bars. -/
theorem Closed.exists_parts (hs : Closed s) :
    ∃ parts, parts ≠ [] ∧ s = ['|'].intercalate parts ∧ ∀ p ∈ parts, BarFree p := by
  -- what stands outside bars goes to the part in front
  have hfront : ∀ {l s}, BarFree l → (∃ parts, parts ≠ [] ∧ s = ['|'].intercalate parts ∧
      ∀ p ∈ parts, BarFree p) → ∃ parts, parts ≠ [] ∧ l ++ s = ['|'].intercalate parts ∧
        ∀ p ∈ parts, BarFree p := by
    rintro l s hl ⟨parts, hne, rfl, hparts⟩
    obtain ⟨p, ps, rfl⟩ := List.exists_cons_of_ne_nil hne
    obtain ⟨hp, hps⟩ := List.forall_mem_cons.1 hparts
    exact ⟨(l ++ p) :: ps, List.cons_ne_nil _ _, (intercalate_append_cons _ l p ps).symm,
      List.forall_mem_cons.2 ⟨hl.append hp, hps⟩⟩
  induction hs with
  | nil => exact ⟨[[]], by simp, rfl, List.forall_mem_singleton.2 .nil⟩
  | @plain c s hquote _ _ ih =>
    by_cases hbar : c = '|'
    · obtain ⟨parts, hne, rfl, hparts⟩ := ih
      obtain ⟨p, ps, rfl⟩ := List.exists_cons_of_ne_nil hne
      exact ⟨[] :: p :: ps, by simp, by simp [hbar, List.intercalate_cons_cons],
        List.forall_mem_cons.2 ⟨.nil, hparts⟩⟩
    · exact hfront (.plain hquote hbar .nil) ih
  | @quoted q l s hquote hclosed _ _ ih =>
    simpa using hfront (.quoted hquote hclosed trivial .nil) ih

/-- Parts between bars are the alternatives. -/
theorem alternatives?_intercalate {parts : List (List Char)} (hne : parts ≠ [])
    (h : ∀ p ∈ parts, BarFree p) : ∃ as, alternatives? (['|'].intercalate parts) = some as ∧
      ([] ∈ as ↔ ∃ p ∈ parts, Silent p) := by
  induction parts with
  | nil => exact absurd rfl hne
  | cons p ps ih =>
    obtain ⟨hp, hps⟩ := List.forall_mem_cons.1 h
    obtain ⟨a, ha, hsilent⟩ := hp.exists_alternative
    cases ps with
    | nil => exact ⟨[a], by simpa using ha, by simp [← hsilent, eq_comm]⟩
    | cons p' ps =>
      obtain ⟨as, has, hrest⟩ := ih (by simp) hps
      refine ⟨a :: as, ?_, by simp [hrest, ← hsilent, eq_comm]⟩
      rw [List.intercalate_cons_cons, List.append_assoc, List.singleton_append,
        alternatives?_append_bar ha, has]
      rfl

/-- An alternative without symbols stands for a part that says nothing. -/
theorem nil_mem_alternatives_iff {as : List (List RawSymbol)} (h : alternatives? s = some as) :
    [] ∈ as ↔ HasSilentPart s := by
  constructor
  · intro hnil
    obtain ⟨ts, hts, -⟩ := Option.map_eq_some_iff.1 h
    obtain ⟨parts, hne, rfl, hparts⟩ := (closed_of_tokens? hts).exists_parts
    obtain ⟨as', has', hsilent⟩ := alternatives?_intercalate hne hparts
    obtain rfl := Option.some.inj (h.symm.trans has')
    exact ⟨parts, rfl, hparts, hsilent.1 hnil⟩
  · rintro ⟨parts, rfl, hparts, p, hp, hsilent⟩
    obtain ⟨as', has', hiff⟩ := alternatives?_intercalate (List.ne_nil_of_mem hp) hparts
    obtain rfl := Option.some.inj (h.symm.trans has')
    exact hiff.2 ⟨p, hp, hsilent⟩

end ContextFree.Notation
