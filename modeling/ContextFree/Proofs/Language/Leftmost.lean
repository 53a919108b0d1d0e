import ContextFree.Language.Leftmost
import ContextFree.Proofs.BreadthFirst
import ContextFree.Proofs.Language.Yield

/-!
# Leftmost search finds the language

A derivation of a word can be put in order, the leftmost non-terminal first.  If no production is
empty, no form on the way is longer than the word, and the terminals that lead a form lead the word:
so a search that keeps such forms only misses nothing.
-/

namespace ContextFree

namespace SententialForm

theorem leftmost?_map_term_append (front : List Char) (a : NonTerm) (back : List Symbol) :
    leftmost? (front.map .term ++ .nonterm a :: back) = some (front.map .term, a, back) := by
  induction front with
  | nil => rfl
  | cons c front ih => simp [leftmost?, ih]

theorem word?_map_term (w : List Char) : word? (w.map .term) = some w := by
  induction w with
  | nil => rfl
  | cons c w ih =>
    rw [word?] at ih
    simp [word?, ih]

theorem eq_map_term_of_word? {form : List Symbol} {w : List Char} (h : word? form = some w) :
    form = w.map .term := by
  induction form generalizing w with
  | nil =>
    cases h
    rfl
  | cons s form ih =>
    cases s with
    | nonterm a => simp [word?] at h
    | term c =>
      obtain ⟨u, hu, rfl⟩ : ∃ u, word? form = some u ∧ c :: u = w := by
        simpa [word?, Option.bind_eq_some_iff] using h
      rw [ih hu, List.map_cons]

end SententialForm

namespace Grammar

open SententialForm

variable {g : Grammar} {w : List Char} {form : List Symbol}

/-! ## Single rewritings -/

theorem mem_rewritings_map_term_append {n : Nat} {front : List Char} {a : NonTerm}
    {back result : List Symbol} :
    result ∈ g.rewritings n (front.map .term ++ .nonterm a :: back) ↔
      result.length ≤ n ∧
        ∃ p ∈ g.productions, p.lhs = a ∧ result = front.map .term ++ p.rhs ++ back := by
  simp only [rewritings, leftmost?_map_term_append, List.mem_filter, List.mem_map,
    decide_eq_true_eq]
  rw [and_comm, and_congr_right_iff]
  intro _
  constructor
  · rintro ⟨i, hi, rfl⟩
    obtain ⟨-, hp, hlhs⟩ := production_of_mem_alternatives hi
    exact ⟨_, hp, hlhs, rfl⟩
  · rintro ⟨p, hp, rfl, rfl⟩
    obtain ⟨i, hi, rfl⟩ := exists_mem_alternatives hp
    exact ⟨i, hi, rfl⟩

/-- A leftmost rewriting is a step of a derivation. -/
theorem rewrites_of_mem_rewritings {n : Nat} {result : List Symbol}
    (h : result ∈ g.rewritings n form) : g.Rewrites form result := by
  rw [rewritings] at h
  split at h
  · cases h
  · rename_i front a back heq
    obtain ⟨i, hi, rfl⟩ := List.mem_map.1 (List.mem_filter.1 h).1
    obtain ⟨-, hp, rfl⟩ := production_of_mem_alternatives hi
    rw [eq_of_leftmost? heq]
    exact .intro hp front back

theorem mem_rewritings_of_le {n n' : Nat} (hle : n ≤ n') {result : List Symbol}
    (h : result ∈ g.rewritings n form) : result ∈ g.rewritings n' form := by
  simp only [rewritings] at h ⊢
  split at h
  · cases h
  · simp only [List.mem_filter, decide_eq_true_eq] at h ⊢
    exact ⟨h.1, Nat.le_trans h.2 hle⟩

/-! ## Candidates for a word -/

/-- The leftmost rewritings of a form that are no longer than a word and agree with it. -/
def candidates (g : Grammar) (w : List Char) (form : List Symbol) : List (List Symbol) :=
  (g.rewritings w.length form).filter (agrees · w)

/-- Forms of which leftmost rewritings make a word agree with the word. -/
theorem agrees_of_yields (h : g.Yields form w) : agrees form w = true := by
  induction h with
  | nil => rfl
  | term c _ ih => simp [agrees, ih]
  | nonterm => simp [agrees]

/-- The leftmost derivation of a part of a word, between a front that is finished and a back that is
still to be derived. -/
theorem reaches_of_yields (hg : g.NonErasing) {u v : List Char} {back : List Symbol}
    (h : g.Yields form u) (front : List Char) (hback : g.Yields back v) :
    Relation.ReflTransGen (fun x y ↦ y ∈ g.candidates (front ++ u ++ v) x)
      (front.map .term ++ form ++ back) ((front ++ u).map .term ++ back) := by
  induction h generalizing front v back with
  | nil => simpa using .refl
  | @term c form u _ ih => simpa using ih (front ++ [c]) hback
  | @nonterm p form u u' hp hrhs hform ih ih' =>
    have hrest := hform.append hback
    have hresult : g.Yields (front.map .term ++ p.rhs ++ (form ++ back))
        (front ++ (u ++ u') ++ v) := by
      simpa using (yields_map_term front).append (hrhs.append hrest)
    have hstep : front.map .term ++ p.rhs ++ (form ++ back) ∈
        g.candidates (front ++ (u ++ u') ++ v)
          (front.map .term ++ .nonterm p.lhs :: (form ++ back)) :=
      List.mem_filter.2 ⟨mem_rewritings_map_term_append.2
        ⟨hresult.length_le hg, p, hp, rfl, rfl⟩, agrees_of_yields hresult⟩
    refine .head (by simpa using hstep) ?_
    -- first what stands for the non-terminal, then what follows it
    refine .trans (b := (front ++ u).map .term ++ (form ++ back)) ?_ ?_
    · simpa using ih front hrest
    · simpa using ih' (front ++ u) hback

/-- What leftmost rewritings lead to is derived. -/
theorem derives_of_reaches {next : List Symbol → List (List Symbol)}
    (hnext : ∀ form, ∀ result ∈ next form, g.Rewrites form result) {result : List Symbol}
    (h : Relation.ReflTransGen (fun x y ↦ y ∈ next x) form result) : g.Derives form result := by
  induction h with
  | refl => exact .refl _
  | tail _ hstep ih => exact .tail ih (hnext _ _ hstep)

/-- A member is reached through candidates for it. -/
theorem reaches_candidates_iff_member (hg : g.NonErasing) :
    Relation.ReflTransGen (fun x y ↦ y ∈ g.candidates w x) [.nonterm g.start] (w.map .term) ↔
      g.Member w := by
  constructor
  · exact derives_of_reaches fun form result h ↦
      rewrites_of_mem_rewritings (List.mem_filter.1 h).1
  · intro h
    simpa using reaches_of_yields hg (generates_iff_yields.1 h) [] .nil

/-! ## Enumeration -/

/-- The words among the reachable forms are the members up to the length. -/
theorem map_term_mem_reachableForms (hg : g.NonErasing) {n : Nat} :
    w.map .term ∈ g.reachableForms n ↔ w.length ≤ n ∧ g.Member w := by
  refine (mem_breadthFirst (g.rewritingEnclosure n) _).trans ?_
  constructor
  · intro h
    refine ⟨?_, derives_of_reaches (fun _ _ ↦ rewrites_of_mem_rewritings) h⟩
    -- the last form was kept for its length; the first one is no word
    rcases Relation.ReflTransGen.cases_tail h with heq | ⟨form, -, hstep⟩
    · cases w <;> simp at heq
    · rw [rewritings] at hstep
      split at hstep
      · cases hstep
      · simpa using (List.mem_filter.1 hstep).2
  · rintro ⟨hlen, h⟩
    refine Relation.ReflTransGen.mono ?_ _ _ ((reaches_candidates_iff_member hg).2 h)
    exact fun x y hy ↦ mem_rewritings_of_le hlen (List.mem_filter.1 hy).1

/-- The enumeration lists exactly the members up to the length. -/
theorem mem_sentences (hg : g.NonErasing) {n : Nat} :
    String.ofList w ∈ g.sentences n ↔ w.length ≤ n ∧ g.Member w := by
  rw [← map_term_mem_reachableForms hg, sentences, List.mem_mergeSort, List.mem_map]
  constructor
  · rintro ⟨u, hu, heq⟩
    obtain ⟨form, hform, hword⟩ := List.mem_filterMap.1 hu
    obtain rfl : u = w := String.ofList_injective heq
    rwa [← eq_map_term_of_word? hword]
  · intro h
    exact ⟨w, List.mem_filterMap.2 ⟨_, h, word?_map_term w⟩, rfl⟩

/-! ## The search on a budget -/

/-- Candidates for a word stay among finitely many forms. -/
def candidateEnclosure (g : Grammar) (w : List Char) : Enclosure (g.candidates w) where
  Inside := (g.rewritingEnclosure w.length).Inside
  finite := (g.rewritingEnclosure w.length).finite
  closed h hb := (g.rewritingEnclosure w.length).closed h (List.mem_filter.1 hb).1

/-- Looks for a word among forms, at one form more than the budget at most. -/
def findWord (w : List Char) : List (List Symbol) → (budget : Nat) → Option Bool
  | [], _ => some false
  | form :: rest, budget =>
    if word? form = some w then some true
    else
      match budget with
      | 0 => if rest = [] then some false else none
      | budget + 1 => findWord w rest budget

/-- An answer is right about all forms, also about those that were not looked at. -/
theorem findWord_eq_some {budget : Nat} {forms : List (List Symbol)} {x : Bool}
    (h : findWord w forms budget = some x) : x = true ↔ ∃ form ∈ forms, word? form = some w := by
  induction forms generalizing budget with
  | nil => simp [← Option.some.inj h]
  | cons form rest ih =>
    by_cases hform : word? form = some w
    · have hx : x = true := by cases budget <;> simp_all [findWord]
      exact ⟨fun _ ↦ ⟨form, .head _, hform⟩, fun _ ↦ hx⟩
    · have hskip : (∃ f ∈ form :: rest, word? f = some w) ↔ ∃ f ∈ rest, word? f = some w := by
        simp [hform]
      rw [hskip]
      cases budget with
      | zero =>
        rw [findWord, if_neg hform] at h
        cases rest <;> simp_all
      | succ budget =>
        rw [findWord, if_neg hform] at h
        exact ih h

/-- The search on a budget looks for the word among the forms that an unbounded search visits. -/
theorem searchFrom_eq (budget : Nat) (st : Search (List Symbol))
    (h : ∀ form ∈ st.queue, (g.candidateEnclosure w).Inside form) :
    g.searchFrom w budget st = findWord w (st.visits (g.candidateEnclosure w) h) budget := by
  induction budget generalizing st with
  | zero =>
    obtain ⟨seen, queue⟩ := st
    cases queue with
    | nil => rw [Search.visits_nil]; rfl
    | cons form rest =>
      obtain ⟨h', heq⟩ := Search.visits_cons _ h
      simp only [heq, searchFrom, findWord, Search.visits_eq_nil_iff]
      rfl
  | succ budget ih =>
    obtain ⟨seen, queue⟩ := st
    cases queue with
    | nil => rw [Search.visits_nil]; rfl
    | cons form rest =>
      obtain ⟨h', heq⟩ := Search.visits_cons _ h
      rw [heq, searchFrom, findWord, ← ih]
      rfl

/-- The forms that a search for a word visits if nothing stops it. -/
def candidateForms (g : Grammar) (w : List Char) : List (List Symbol) :=
  breadthFirst (g.candidateEnclosure w) [.nonterm g.start]
    ⟨Nat.le_max_right _ _, by simp [alphabet]⟩

theorem map_term_mem_candidateForms (hg : g.NonErasing) :
    w.map .term ∈ g.candidateForms w ↔ g.Member w :=
  (mem_breadthFirst (g.candidateEnclosure w) _).trans (reaches_candidates_iff_member hg)

theorem generates?_of_ne_nil (hw : w ≠ []) (budget : Nat) :
    g.generates? w budget = findWord w (g.candidateForms w) (budget - 1) := by
  rw [generates?, if_neg hw]
  exact searchFrom_eq _ _ _

/-- If the search on a budget has an answer, it is the right one. -/
theorem generates?_eq_some (hg : g.NonErasing) {budget : Nat} {x : Bool}
    (h : g.generates? w budget = some x) : x = true ↔ g.Member w := by
  by_cases hw : w = []
  · rw [generates?, if_pos hw] at h
    subst hw
    simp [← Option.some.inj h, hg.not_member_nil]
  · rw [generates?_of_ne_nil hw] at h
    rw [findWord_eq_some h, ← map_term_mem_candidateForms hg]
    constructor
    · rintro ⟨form, hform, hword⟩
      rwa [← eq_map_term_of_word? hword]
    · intro hmem
      exact ⟨_, hmem, word?_map_term w⟩

end Grammar

end ContextFree
