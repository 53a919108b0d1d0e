import ContextFree.Proofs.Notation.Quoting

/-!
# Patterns and the order of their matches

A pattern can match the beginning of a text in more than one way, and a search tries the ways in
an order (`Pattern.tries`): the left side of a choice stands before the right side, and a
repetition takes as much as it can first.  The first way counts.  A search through a text goes on
behind each match, and passes over a character where there is none (`Pattern.findAll`).

The tokens of a right-hand side are the matches of `tokenPattern`, a choice with five sides.  Which
side matches, and how far, is said once for each kind of text that the pattern can stand before.
-/

namespace ContextFree.Notation

open ContextFree.Text

/-! ## Patterns -/

/-- A pattern; its groups have names in `κ`. -/
inductive Pattern (κ : Type) where
  | char (p : Char → Bool)
  /-- Any number of characters, as many as possible. -/
  | many (p : Char → Bool)
  | seq (l r : Pattern κ)
  | alt (l r : Pattern κ)
  | group (name : κ) (l : Pattern κ)

/-- One way to match the beginning of a text: what is matched, as a whole and by each group that
takes part, and the rest of the text. -/
structure Match (κ : Type) where
  text : List Char
  groups : List (κ × List Char)
  rest : List Char

variable {κ : Type} {p : Char → Bool} {s l r : List Char} {c q : Char} {m : Match κ}

/-- A match and then another one in its rest. -/
def Match.andThen (m m' : Match κ) : Match κ := ⟨m.text ++ m'.text, m.groups ++ m'.groups, m'.rest⟩

/-- What a group matches, if it takes part. -/
def Match.group? [BEq κ] (m : Match κ) (name : κ) : Option (List Char) := m.groups.lookup name

namespace Pattern

/-- The runs of characters at the beginning of a text, the longest one first. -/
def runs (p : Char → Bool) : List Char → List (List Char × List Char)
  | [] => [([], [])]
  | c :: s =>
    if p c then (runs p s).map (fun (l, r) ↦ (c :: l, r)) ++ [([], c :: s)] else [([], c :: s)]

/-- The ways to match the beginning of a text, in the order in which they are tried. -/
def tries : Pattern κ → List Char → List (Match κ)
  | .char _, [] => []
  | .char p, c :: s => if p c then [⟨[c], [], s⟩] else []
  | .many p, s => (runs p s).map fun (l, r) ↦ ⟨l, [], r⟩
  | .seq l r, s => (l.tries s).flatMap fun m ↦ (r.tries m.rest).map m.andThen
  | .alt l r, s => l.tries s ++ r.tries s
  | .group name l, s => (l.tries s).map fun m ↦ { m with groups := (name, m.text) :: m.groups }

theorem append_of_mem_runs (h : (l, r) ∈ runs p s) : l ++ r = s := by
  induction s generalizing l with
  | nil => simp_all [runs]
  | cons c s ih =>
    rw [runs] at h
    split at h
    case isTrue =>
      rcases List.mem_append.1 h with h | h
      · obtain ⟨⟨l', r'⟩, hmem, heq⟩ := List.mem_map.1 h
        obtain ⟨rfl, rfl⟩ := Prod.mk.inj heq
        rw [List.cons_append, ih hmem]
      · simp_all
    case isFalse => simp_all

/-- A match and its rest make up the text. -/
theorem text_append_rest {x : Pattern κ} (h : m ∈ x.tries s) : m.text ++ m.rest = s := by
  induction x generalizing s m with
  | char p =>
    cases s with
    | nil => simp [tries] at h
    | cons c s => grind [tries]
  | many p =>
    obtain ⟨⟨l, r⟩, hmem, rfl⟩ := List.mem_map.1 h
    exact append_of_mem_runs hmem
  | seq x y ihx ihy =>
    obtain ⟨m₁, hm₁, hm⟩ := List.mem_flatMap.1 h
    obtain ⟨m₂, hm₂, rfl⟩ := List.mem_map.1 hm
    rw [Match.andThen, List.append_assoc, ihy hm₂, ihx hm₁]
  | alt x y ihx ihy => exact (List.mem_append.1 h).elim ihx ihy
  | group name x ih =>
    obtain ⟨m', hm', rfl⟩ := List.mem_map.1 h
    exact (ih hm' : m'.text ++ m'.rest = s)

/-- The matches in a text from left to right.  A match that takes nothing is passed over as if
there were none. -/
def findAll (x : Pattern κ) : List Char → List (Match κ)
  | [] => []
  | c :: s =>
    match _h : (x.tries (c :: s)).head? with
    | none => x.findAll s
    | some m => if m.text = [] then x.findAll s else m :: x.findAll m.rest
termination_by s => s.length
decreasing_by
  · simp
  · simp
  · rename_i hne
    have happend := congrArg List.length (text_append_rest (List.mem_of_head? _h))
    have hpos := List.length_pos_iff.2 hne
    rw [List.length_append] at happend
    omega

theorem findAll_nil (x : Pattern κ) : x.findAll [] = [] := by rw [findAll]

theorem findAll_of_head?_eq_some {x : Pattern κ} (h : (x.tries s).head? = some m)
    (hm : m.text ≠ []) : x.findAll s = m :: x.findAll m.rest := by
  cases s with
  | nil => exact absurd (text_append_rest (List.mem_of_head? h)) (by simp [hm])
  | cons c s =>
    rw [findAll]
    split
    case h_1 hnone => simp [h] at hnone
    case h_2 m' hsome =>
      obtain rfl := Option.some.inj (h.symm.trans hsome)
      rw [if_neg hm]

theorem findAll_cons_of_tries_eq_nil {x : Pattern κ} (h : x.tries (c :: s) = []) :
    x.findAll (c :: s) = x.findAll s := by
  rw [findAll]
  split
  case h_1 => rfl
  case h_2 hsome => simp [h] at hsome

end Pattern

/-! ## The first run, and the run up to a quote -/

theorem head?_runs (p : Char → Bool) (s : List Char) :
    (Pattern.runs p s).head? = some (s.takeWhile p, s.dropWhile p) := by
  induction s with
  | nil => rfl
  | cons c s ih =>
    rw [Pattern.runs]
    split
    case isTrue hc => simp [hc, List.head?_append, ih]
    case isFalse hc => simp [hc]

/-- Of the runs without `q` only one stands before a `q`: behind a shorter run there is a
character of the longest. -/
theorem flatMap_runs_ne {β : Type} (q : Char) (s : List Char) (f : List Char → List Char → β) :
    ((Pattern.runs (· ≠ q) s).flatMap fun (l, r) ↦
        if r.head? = some q then [f l r.tail] else []) =
      ((splitAt? q s).map fun (l, r) ↦ f l r).toList := by
  induction s generalizing f with
  | nil => rfl
  | cons c s ih =>
    rw [Pattern.runs, splitAt?]
    by_cases hc : c = q
    · simp [hc]
    · have hrest := ih fun l r ↦ f (c :: l) r
      simp only [hc, ne_eq, not_false_eq_true, decide_true, if_true, if_false,
        List.flatMap_append, List.flatMap_map, List.flatMap_singleton, List.head?_cons,
        Option.some.injEq, List.append_nil, Option.map_map] at hrest ⊢
      exact hrest

/-! ## The pattern of tokens -/

/-- The groups of the pattern of tokens. -/
inductive Group where
  | single
  | double
  | bar
  | bad
  | bare
deriving DecidableEq, Repr

/-- What stands between two quotes of a kind. -/
def quotedPattern (q : Char) (name : Group) : Pattern Group :=
  .seq (.char (· = q)) (.seq (.group name (.many (· ≠ q))) (.char (· = q)))

/-- A token, or else a quote by itself. -/
def tokenPattern : Pattern Group :=
  .alt (quotedPattern '\'' .single) <| .alt (quotedPattern '"' .double) <|
    .alt (.group .bar (.char (· = '|'))) <| .alt (.group .bad (.char isQuote)) <|
      .group .bare (.seq (.char isWordChar) (.many isWordChar))

open Pattern

/-- A run between two quotes of a kind, with the rest behind it. -/
def quotedMatch (q : Char) (name : Group) (l r : List Char) : Match Group :=
  ⟨q :: (l ++ [q]), [(name, l)], r⟩

/-- A quote is matched together with the next one of its kind, and in no other way. -/
theorem tries_quotedPattern (q : Char) (name : Group) (s : List Char) :
    (quotedPattern q name).tries (q :: s) =
      ((splitAt? q s).map fun (l, r) ↦ quotedMatch q name l r).toList := by
  rw [← flatMap_runs_ne q s (quotedMatch q name)]
  simp only [quotedPattern, tries, decide_true, if_true, List.flatMap_singleton,
    List.flatMap_map, List.map_flatMap, List.map_map]
  refine List.flatMap_congr fun (l, r) _ ↦ ?_
  cases r with
  | nil => rfl
  | cons d r => by_cases hd : d = q <;> simp [tries, hd, Match.andThen, quotedMatch]

theorem tries_quotedPattern_of_ne {name : Group} (h : c ≠ q) :
    (quotedPattern q name).tries (c :: s) = [] := by simp [quotedPattern, tries, h]

/-! ## What the pattern of tokens matches -/

theorem tries_tokenPattern_blank (h : isBlank c = true) : tokenPattern.tries (c :: s) = [] := by
  have hquote := isQuote_eq_false_of_isBlank h
  have hword : isWordChar c = false := by simp [isWordChar, h]
  have hne : c ≠ '\'' ∧ c ≠ '"' := by simpa [isQuote] using hquote
  simp [tokenPattern, tries, tries_quotedPattern_of_ne hne.1, tries_quotedPattern_of_ne hne.2,
    hquote, hword, ne_bar_of_isBlank h]

theorem tries_tokenPattern_bar (s : List Char) :
    tokenPattern.tries ('|' :: s) = [⟨['|'], [(.bar, ['|'])], s⟩] := by
  simp +decide [tokenPattern, tries, tries_quotedPattern_of_ne]

/-- The first match of a character that can stand in a word is the longest word. -/
theorem head?_tries_tokenPattern_word (h : isWordChar c = true) (s : List Char) :
    (tokenPattern.tries (c :: s)).head? =
      some ⟨c :: s.takeWhile isWordChar, [(.bare, c :: s.takeWhile isWordChar)],
        s.dropWhile isWordChar⟩ := by
  have hrun := head?_runs isWordChar s
  have hne : (c ≠ '|' ∧ c ≠ '\'' ∧ c ≠ '"') ∧ isQuote c = false := by
    simp_all [isWordChar, isQuote]
  obtain ⟨⟨hbar, hsingle, hdouble⟩, hquote⟩ := hne
  simp [tokenPattern, tries, tries_quotedPattern_of_ne hsingle, tries_quotedPattern_of_ne hdouble,
    hquote, h, hbar, Match.andThen, hrun]

/-- The name of the group for what stands between quotes of a kind. -/
def quoteGroup (q : Char) : Group := if q = '\'' then .single else .double

/-- A quote goes with the next one of its kind, and is a bad one if there is none. -/
theorem tries_tokenPattern_quote (hq : isQuote q = true) (s : List Char) :
    tokenPattern.tries (q :: s) =
      ((splitAt? q s).map fun (l, r) ↦ quotedMatch q (quoteGroup q) l r).toList ++
        [⟨[q], [(.bad, [q])], s⟩] := by
  have hkind : q = '\'' ∨ q = '"' := by simpa [isQuote] using hq
  rcases hkind with rfl | rfl
  · simp +decide [tokenPattern, tries, tries_quotedPattern, tries_quotedPattern_of_ne, quoteGroup]
  · simp +decide [tokenPattern, tries, tries_quotedPattern, tries_quotedPattern_of_ne, quoteGroup]

/-- A quote by itself is tried too, but later. -/
example : (tokenPattern.tries "'|'a".toList).map (·.text) = ["'|'".toList, "'".toList] := by
  decide

end ContextFree.Notation
