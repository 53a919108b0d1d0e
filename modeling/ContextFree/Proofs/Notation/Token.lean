import ContextFree.Notation.Printer
import ContextFree.Proofs.Grammar.Building

/-!
# Tokens that are read and tokens that are printed

Each kind of token is read by an equation of its own.  A printed right-hand side is read token by
token: a terminal as the quoted character, a name as a word, as long as no character of the name
would end the word.  What stands behind it, a space or nothing, ends the last token.

In the other direction, a token of a text holds characters of the text only.
-/

namespace ContextFree.Notation

open ContextFree.Text

variable {c : Char} {s t : List Char}

/-- A text that is one word: it is not empty, and each character can stand in a word. -/
structure IsWord (s : List Char) : Prop where
  ne_nil : s ≠ []
  isWordChar : ∀ c ∈ s, isWordChar c = true

/-! ## Splitting -/

/-- A text is split at the first occurrence. -/
theorem splitAt?_eq_some_iff {q : Char} {l r : List Char} :
    splitAt? q s = some (l, r) ↔ s = l ++ q :: r ∧ q ∉ l := by
  induction s generalizing l r with
  | nil => simp [splitAt?]
  | cons c s ih =>
    rw [splitAt?]
    split
    case isTrue heq =>
      subst heq
      cases l with
      | nil => simp
      | cons d l => simpa using fun h _ hne ↦ absurd h hne
    case isFalse hne =>
      cases l with
      | nil => simp [hne]
      | cons d l =>
        simp only [Option.map_eq_some_iff, Prod.exists, Prod.mk.injEq, List.cons.injEq, ih,
          List.cons_append, List.mem_cons, not_or]
        constructor
        · rintro ⟨l', r', ⟨rfl, hq⟩, ⟨rfl, rfl⟩, rfl⟩
          exact ⟨⟨rfl, rfl⟩, fun heq ↦ hne heq.symm, hq⟩
        · rintro ⟨⟨rfl, rfl⟩, -, hq⟩
          exact ⟨l, r, ⟨rfl, hq⟩, ⟨rfl, rfl⟩, rfl⟩

theorem splitAt?_eq_none_iff {q : Char} : splitAt? q s = none ↔ q ∉ s := by
  rw [Option.eq_none_iff_forall_ne_some]
  constructor
  · intro h hmem
    obtain ⟨l, r, rfl, hl⟩ := List.eq_append_cons_of_mem hmem
    exact h _ (splitAt?_eq_some_iff.2 ⟨rfl, hl⟩)
  · rintro h ⟨l, r⟩ hsome
    obtain ⟨rfl, -⟩ := splitAt?_eq_some_iff.1 hsome
    exact h (by simp)

/-! ## One token -/

@[simp] theorem isWordChar_space : isWordChar ' ' = false := by decide

/-- What ends a word is not in it. -/
theorem IsWord.notMem (hs : IsWord s) (h : Notation.isWordChar c = false) : c ∉ s := fun hmem ↦ by
  simp [hs.isWordChar c hmem] at h

theorem isBlank_eq_false_of_isWordChar (h : isWordChar c = true) : isBlank c = false := by
  simp_all [isWordChar]

theorem isBlank_eq_false_of_isQuote (h : isQuote c = true) : isBlank c = false := by
  simp only [isQuote, Bool.or_eq_true, decide_eq_true_eq] at h
  rcases h with rfl | rfl <;> decide

theorem ne_bar_of_isBlank (h : isBlank c = true) : c ≠ '|' := by
  rintro rfl
  exact absurd h (by decide)

theorem ne_bar_of_isQuote (h : isQuote c = true) : c ≠ '|' := by
  rintro rfl
  exact absurd h (by decide)

theorem ne_bar_of_isWordChar (h : isWordChar c = true) : c ≠ '|' := by
  rintro rfl
  exact absurd h (by decide)

@[simp] theorem tokens?_nil : tokens? [] = some [] := by rw [tokens?]

theorem tokens?_blank (h : isBlank c = true) (s : List Char) :
    tokens? (c :: s) = tokens? s := by rw [tokens?, if_pos h]

theorem tokens?_bar (s : List Char) : tokens? ('|' :: s) = (tokens? s).map (.bar :: ·) := by
  rw [tokens?, if_neg (by decide), if_pos rfl]

/-- A quote that is closed. -/
theorem tokens?_quote {q : Char} (hq : isQuote q = true) {l r : List Char}
    (h : splitAt? q s = some (l, r)) : tokens? (q :: s) = (tokens? r).map (.quoted l :: ·) := by
  rw [tokens?, if_neg (by simp [isBlank_eq_false_of_isQuote hq]),
    if_neg (ne_bar_of_isQuote hq), if_pos hq]
  split
  case h_1 hnone => simp [h] at hnone
  case h_2 l' r' hsome =>
    rw [h, Option.some.injEq, Prod.mk.injEq] at hsome
    obtain ⟨rfl, rfl⟩ := hsome
    rfl

theorem tokens?_cons_of_isWordChar (h : isWordChar c = true) (s : List Char) :
    tokens? (c :: s) =
      (tokens? (s.dropWhile isWordChar)).map (.word (c :: s.takeWhile isWordChar) :: ·) := by
  have hblank := isBlank_eq_false_of_isWordChar h
  simp only [isWordChar, hblank, Bool.not_false, Bool.true_and, Bool.and_eq_true,
    decide_eq_true_eq, Bool.not_eq_true'] at h
  rw [tokens?, if_neg (by simp [hblank]), if_neg h.1, if_neg (by simp [h.2])]

/-- A word is read up to the character that ends it. -/
theorem tokens?_append (hs : IsWord s) (ht : ∀ c ∈ t.head?, isWordChar c = false) :
    tokens? (s ++ t) = (tokens? t).map (.word s :: ·) := by
  obtain ⟨hne, hword⟩ := hs
  cases s with
  | nil => exact absurd rfl hne
  | cons c s =>
    have hs : ∀ d ∈ s, isWordChar d = true := fun d hd ↦ hword d (.tail _ hd)
    have hstop : t.takeWhile isWordChar = [] ∧ t.dropWhile isWordChar = t := by
      cases t with
      | nil => simp
      | cons d t => simp [ht d rfl]
    rw [List.cons_append, tokens?_cons_of_isWordChar (hword c (.head _)),
      List.takeWhile_append_of_pos hs, List.dropWhile_append_of_pos hs, hstop.1, hstop.2,
      List.append_nil]

/-- What stands before the end of a word is read by itself. -/
theorem tokens?_append_of_eq_some {ts : List Token} (hs : tokens? s = some ts)
    (ht : ∀ c ∈ t.head?, isWordChar c = false) : tokens? (s ++ t) = (tokens? t).map (ts ++ ·) := by
  fun_induction tokens? s generalizing ts with
  | case1 =>
    cases hs
    simp
  | case2 c s hblank ih => rw [List.cons_append, tokens?_blank hblank, ih hs]
  | case3 s hblank ih =>
    obtain ⟨ts', hts, rfl⟩ := Option.map_eq_some_iff.1 hs
    rw [List.cons_append, tokens?_bar, ih hts, Option.map_map]
    rfl
  | case4 => cases hs
  | case5 c s hblank hbar hquote l r hsplit ih =>
    obtain ⟨ts', hts, rfl⟩ := Option.map_eq_some_iff.1 hs
    obtain ⟨rfl, hl⟩ := splitAt?_eq_some_iff.1 hsplit
    have hsplit' : splitAt? c (l ++ c :: r ++ t) = some (l, r ++ t) :=
      splitAt?_eq_some_iff.2 ⟨by simp, hl⟩
    rw [List.cons_append, tokens?_quote hquote hsplit', ih hts, Option.map_map]
    rfl
  | case6 c s hblank hbar hquote ih =>
    obtain ⟨ts', hts, rfl⟩ := Option.map_eq_some_iff.1 hs
    have hword : IsWord (c :: s.takeWhile isWordChar) := by
      refine ⟨List.cons_ne_nil _ _, List.forall_mem_cons.2 ⟨by simp_all [isWordChar], ?_⟩⟩
      exact List.all_eq_true.1 List.all_takeWhile
    have hstop : ∀ d ∈ (s.dropWhile isWordChar ++ t).head?, isWordChar d = false := by
      have hdrop := List.head?_dropWhile_not isWordChar s
      cases hs : s.dropWhile isWordChar with
      | nil => exact ht
      | cons d s' => simpa [hs] using hdrop
    have hsplit : c :: s ++ t =
        (c :: s.takeWhile isWordChar) ++ (s.dropWhile isWordChar ++ t) := by
      simp [← List.append_assoc]
    rw [hsplit, tokens?_append hword hstop, ih hts, Option.map_map]
    rfl

/-! ## Alternatives -/

theorem alternatives_ne_nil (ts : List Token) : Token.alternatives ts ≠ [] := by
  fun_cases Token.alternatives ts <;> simp

/-- A token that is no bar stands at the beginning of the first alternative. -/
theorem exists_alternatives_cons {t : Token} (ht : t ≠ .bar) (ts : List Token) :
    ∃ a as, Token.alternatives ts = a :: as ∧
      Token.alternatives (t :: ts) = (t.symbols ++ a) :: as := by
  obtain ⟨a, as, hcons⟩ := List.exists_cons_of_ne_nil (alternatives_ne_nil ts)
  refine ⟨a, as, hcons, ?_⟩
  cases t with
  | bar => exact absurd rfl ht
  | quoted l => simp [Token.alternatives, hcons]
  | word w => simp [Token.alternatives, hcons]

/-- There is one alternative more than there are bars. -/
theorem length_alternatives (ts : List Token) :
    (Token.alternatives ts).length = 1 + ts.count .bar := by
  induction ts with
  | nil => rfl
  | cons t ts ih =>
    by_cases ht : t = .bar
    · simp [ht, Token.alternatives, ih, Nat.add_assoc]
    · obtain ⟨a, as, hts, hcons⟩ := exists_alternatives_cons ht ts
      rw [hcons, List.count_cons_of_ne ht, ← ih, hts]
      rfl

/-- Put together, the alternatives are the symbols of the tokens. -/
theorem flatten_alternatives (ts : List Token) :
    (Token.alternatives ts).flatten = ts.flatMap Token.symbols := by
  induction ts with
  | nil => rfl
  | cons t ts ih =>
    by_cases ht : t = .bar
    · simp [ht, Token.alternatives, ih, Token.symbols]
    · obtain ⟨a, as, hts, hcons⟩ := exists_alternatives_cons ht ts
      rw [hcons, List.flatMap_cons, ← ih, hts, List.flatten_cons, List.append_assoc]
      rfl

/-- Without a bar there is one alternative. -/
theorem alternatives_of_bar_notMem {ts : List Token} (h : .bar ∉ ts) :
    Token.alternatives ts = [ts.flatMap Token.symbols] := by
  have hlength : (Token.alternatives ts).length = 1 := by
    rw [length_alternatives, List.count_eq_zero.2 h]
  obtain ⟨a, has⟩ := List.length_eq_one_iff.1 hlength
  rw [← flatten_alternatives, has, List.flatten_singleton]

/-- A bar ends an alternative, and with it the alternatives before it. -/
theorem alternatives_append_bar (ts ts' : List Token) :
    Token.alternatives (ts ++ .bar :: ts') = Token.alternatives ts ++ Token.alternatives ts' := by
  induction ts with
  | nil => rfl
  | cons t ts ih =>
    obtain ⟨a, as, hcons⟩ := List.exists_cons_of_ne_nil (alternatives_ne_nil ts)
    cases t <;> simp [Token.alternatives, ih, hcons]

/-- Lists of tokens with bars between them are the alternatives of the whole. -/
theorem alternatives_intercalate_bar {tss : List (List Token)} (hne : tss ≠ [])
    (h : ∀ ts ∈ tss, .bar ∉ ts) :
    Token.alternatives ([Token.bar].intercalate tss) = tss.map (·.flatMap Token.symbols) := by
  induction tss with
  | nil => exact absurd rfl hne
  | cons ts tss ih =>
    cases tss with
    | nil => simp [alternatives_of_bar_notMem (h ts (.head _))]
    | cons ts' tss =>
      rw [List.intercalate_cons_cons, List.append_assoc, List.singleton_append,
        alternatives_append_bar, alternatives_of_bar_notMem (h ts (.head _)),
        ih (by simp) fun ts hts ↦ h ts (.tail _ hts)]
      rfl

/-! ## Printed right-hand sides -/

section Printed

variable {g : Grammar}

/-- The token as which a printed symbol is read. -/
def symbolToken (g : Grammar) : Symbol → Token
  | .term c => .quoted [c]
  | .nonterm a => .word (g.name a).toList

@[simp] theorem symbols_symbolToken (g : Grammar) (s : Symbol) :
    (symbolToken g s).symbols = [g.rawSymbol s] := by
  cases s <;> simp [symbolToken, Token.symbols, Grammar.rawSymbol]

theorem symbolToken_ne_bar (g : Grammar) (s : Symbol) : symbolToken g s ≠ .bar := by
  cases s <;> simp [symbolToken]

theorem tokens?_toList_quote (c : Char) (t : List Char) :
    tokens? ((quote c).toList ++ t) = (tokens? t).map (.quoted [c] :: ·) := by
  rw [quote]
  split
  case isTrue heq =>
    subst heq
    exact tokens?_quote (s := '\'' :: '"' :: t) rfl rfl
  case isFalse hne =>
    have hsplit : splitAt? '\'' (c :: '\'' :: t) = some ([c], t) := by simp [splitAt?, hne]
    simpa using tokens?_quote rfl hsplit

/-- The names in a right-hand side are words. -/
def NamesAreWords (g : Grammar) (rhs : List Symbol) : Prop :=
  ∀ a, .nonterm a ∈ rhs → IsWord (g.name a).toList

theorem tokens?_toList_printSymbol {x : Symbol} (hx : NamesAreWords g [x])
    (ht : ∀ c ∈ t.head?, isWordChar c = false) :
    tokens? ((printSymbol g x).toList ++ t) = (tokens? t).map (symbolToken g x :: ·) := by
  cases x with
  | term c => exact tokens?_toList_quote c t
  | nonterm a => exact tokens?_append (hx a (.head _)) ht

theorem toList_printAlternative (g : Grammar) (rhs : List Symbol) :
    (printAlternative g rhs).toList = rhs.flatMap fun x ↦ ' ' :: (printSymbol g x).toList := by
  simp [printAlternative, String.toList_join, List.flatMap_map]

/-- A printed right-hand side is read symbol by symbol. -/
theorem tokens?_toList_printAlternative {rhs : List Symbol} (h : NamesAreWords g rhs)
    (ht : ∀ c ∈ t.head?, isWordChar c = false) :
    tokens? ((printAlternative g rhs).toList ++ t) =
      (tokens? t).map (rhs.map (symbolToken g) ++ ·) := by
  rw [toList_printAlternative]
  induction rhs with
  | nil => simp
  | cons x rhs ih =>
    have hx : NamesAreWords g [x] := fun a ha ↦ h a (List.mem_singleton.1 ha ▸ .head _)
    have hrest : ∀ c ∈ (rhs.flatMap (fun x ↦ ' ' :: (printSymbol g x).toList) ++ t).head?,
        isWordChar c = false := by
      cases rhs with
      | nil => exact ht
      | cons x rhs => simp
    rw [List.flatMap_cons, List.cons_append, List.cons_append, tokens?_blank (by decide),
      List.append_assoc, tokens?_toList_printSymbol hx hrest, ih fun a ha ↦ h a (.tail _ ha),
      Option.map_map]
    rfl

/-- The tokens of printed alternatives, with a bar between any two. -/
theorem tokens?_intercalate_printAlternative {as : List (List Symbol)}
    (h : ∀ rhs ∈ as, NamesAreWords g rhs) :
    tokens? (" |".intercalate (as.map (printAlternative g))).toList =
      some ([Token.bar].intercalate (as.map (·.map (symbolToken g)))) := by
  induction as with
  | nil => simp
  | cons rhs as ih =>
    have hrhs := h rhs (.head _)
    cases as with
    | nil =>
      have hread := tokens?_toList_printAlternative hrhs (t := []) (by simp)
      simpa using hread
    | cons rhs' as =>
      have hrest := ih fun rhs hrhs ↦ h rhs (.tail _ hrhs)
      -- the space ends the last token before the bar
      have hbar : tokens? (' ' :: '|' :: (" |".intercalate
          ((rhs' :: as).map (printAlternative g))).toList) =
            some (.bar :: [Token.bar].intercalate ((rhs' :: as).map (·.map (symbolToken g)))) := by
        rw [tokens?_blank (by decide), tokens?_bar, hrest, Option.map_some]
      rw [List.map_cons, List.map_cons, String.intercalate_cons_cons, String.toList_append,
        String.toList_append, List.append_assoc]
      refine (tokens?_toList_printAlternative hrhs (by simp)).trans ?_
      rw [← List.map_cons]
      refine (congrArg _ hbar).trans ?_
      simp [List.intercalate_cons_cons]

/-- Printed alternatives are read as what they were printed from. -/
theorem alternatives?_intercalate_printAlternative {as : List (List Symbol)} (hne : as ≠ [])
    (h : ∀ rhs ∈ as, NamesAreWords g rhs) :
    alternatives? (" |".intercalate (as.map (printAlternative g))).toList =
      some (as.map (·.map g.rawSymbol)) := by
  have hbar : ∀ ts ∈ as.map (·.map (symbolToken g)), .bar ∉ ts := by
    intro ts hts hmem
    obtain ⟨rhs, -, rfl⟩ := List.mem_map.1 hts
    obtain ⟨x, -, hx⟩ := List.mem_map.1 hmem
    exact symbolToken_ne_bar g x hx
  rw [alternatives?, tokens?_intercalate_printAlternative h, Option.map_some,
    alternatives_intercalate_bar (by simpa using hne) hbar, List.map_map]
  congr 2
  funext rhs
  simp [List.flatMap_map, List.map_eq_flatMap (f := g.rawSymbol)]

end Printed

end ContextFree.Notation
