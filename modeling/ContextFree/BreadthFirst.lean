/-!
# Breadth-first search

A search knows everything that was ever put into its queue, so it visits nothing twice.  It ends
if a finite set encloses the start and all successors; the set is never computed.
-/

namespace ContextFree

/-- The state of a breadth-first search. -/
structure Search (α : Type) where
  /-- Everything that was ever put into the queue, the latest first. -/
  seen : List α
  queue : List α
deriving Repr

/-- A finite set that no successor leaves. -/
structure Enclosure {α : Type} (next : α → List α) where
  Inside : α → Prop
  finite : ∃ l : List α, ∀ a, Inside a → a ∈ l
  closed : ∀ {a b : α}, Inside a → b ∈ next a → Inside b

namespace Search

variable {α : Type} [DecidableEq α]

/-- The search that begins at `a`. -/
def start (a : α) : Search α := ⟨[a], [a]⟩

/-- Queues an element, unless it was queued before. -/
def push (st : Search α) (b : α) : Search α :=
  if b ∈ st.seen then st else ⟨b :: st.seen, st.queue ++ [b]⟩

/-- Queues elements one after the other. -/
def pushAll (st : Search α) (bs : List α) : Search α := bs.foldl push st

/-! ## Every visit shrinks what is left -/

/-- How much of a list was never queued. -/
def unseen (l : List α) (st : Search α) : Nat := (l.filter (· ∉ st.seen)).length

omit [DecidableEq α] in
theorem length_filter_lt {p q : α → Bool} {l : List α} (hpq : ∀ a, p a → q a) {b : α}
    (hb : b ∈ l) (hq : q b) (hp : ¬p b) : (l.filter p).length < (l.filter q).length := by
  induction l with
  | nil => simp at hb
  | cons a l ih =>
    rcases List.mem_cons.1 hb with rfl | hb
    · have : l.countP p ≤ l.countP q := List.countP_mono_left fun a _ ↦ hpq a
      simp only [List.countP_eq_length_filter] at this
      simp [hq, hp]
      omega
    · have := ih hb
      by_cases h : p a
      · simp [h, hpq a h, this]
      · by_cases h' : q a <;> simp [h, h'] <;> omega

theorem push_eq_self_or_unseen_lt {l : List α} {b : α} (hb : b ∈ l) (st : Search α) :
    st.push b = st ∨ (st.push b).unseen l < st.unseen l := by
  by_cases h : b ∈ st.seen
  · exact .inl (by simp [push, h])
  · refine .inr ?_
    rw [push, if_neg h]
    exact length_filter_lt (by simp) hb (by simpa using h) (by simp)

theorem pushAll_eq_self_or_unseen_lt {l bs : List α} (hbs : ∀ b ∈ bs, b ∈ l) (st : Search α) :
    st.pushAll bs = st ∨ (st.pushAll bs).unseen l < st.unseen l := by
  induction bs generalizing st with
  | nil => exact .inl rfl
  | cons b bs ih =>
    have ih := ih (fun b hb ↦ hbs b (.tail _ hb)) (st.push b)
    rcases push_eq_self_or_unseen_lt (hbs b (.head _)) st with h | h
    · rw [h] at ih
      simpa [pushAll, h] using ih
    · refine .inr ?_
      rcases ih with ih | ih
      · simp only [pushAll, List.foldl_cons] at ih ⊢
        rwa [ih]
      · exact Nat.lt_trans ih h

/-- What a push may put into the queue. -/
theorem mem_queue_pushAll {bs : List α} {st : Search α} {a : α}
    (h : a ∈ (st.pushAll bs).queue) : a ∈ st.queue ∨ a ∈ bs := by
  induction bs generalizing st with
  | nil => exact .inl h
  | cons b bs ih =>
    rcases @ih (st.push b) h with h | h
    · rw [push] at h
      split at h
      · exact .inl h
      · rcases List.mem_append.1 h with h | h
        · exact .inl h
        · exact .inr (by simp_all)
    · exact .inr (.tail _ h)

/-! ## Visiting everything -/

/-- The visits of a search, in order. -/
def visits {next : α → List α} (e : Enclosure next) (st : Search α)
    (h : ∀ a ∈ st.queue, e.Inside a) : List α :=
  match hq : st.queue with
  | [] => []
  | a :: rest =>
    have inside : ∀ b ∈ (pushAll ⟨st.seen, rest⟩ (next a)).queue, e.Inside b := fun _ hb ↦
      (mem_queue_pushAll hb).elim (fun hb ↦ h _ (hq ▸ .tail _ hb))
        (e.closed (h a (hq ▸ .head _)))
    a :: visits e (pushAll ⟨st.seen, rest⟩ (next a)) inside
termination_by (st.unseen e.finite.choose, st.queue.length)
decreasing_by
  have bound : ∀ b ∈ next a, b ∈ e.finite.choose := fun b hb ↦
    e.finite.choose_spec b (e.closed (h a (hq ▸ .head _)) hb)
  rcases pushAll_eq_self_or_unseen_lt bound ⟨st.seen, rest⟩ with h' | h'
  · rw [h', hq]
    exact .right _ (by simp)
  · exact .left _ _ h'

end Search

/-- Everything that can be reached from `a`, in breadth-first order. -/
def breadthFirst {α : Type} [DecidableEq α] {next : α → List α} (e : Enclosure next) (a : α)
    (h : e.Inside a) : List α :=
  (Search.start a).visits e (by simpa [Search.start] using h)

end ContextFree
