import ContextFree.BreadthFirst
import Mathlib.Data.List.Nodup
import Mathlib.Logic.Relation

/-!
# What a breadth-first search visits

A search from `a` visits exactly what can be reached from `a` (`mem_breadthFirst`), and nothing twice
(`nodup_breadthFirst`), whatever set encloses it: the enclosure is there for termination only.
-/

namespace ContextFree

namespace Search

variable {α : Type} [DecidableEq α]

/-! ## Queueing -/

theorem mem_seen_push {st : Search α} {a b : α} :
    a ∈ (st.push b).seen ↔ a ∈ st.seen ∨ a = b := by
  rw [push]
  split
  case isTrue h =>
    refine ⟨.inl, ?_⟩
    rintro (ha | rfl)
    · exact ha
    · exact h
  case isFalse => rw [List.mem_cons, or_comm]

theorem mem_seen_pushAll {st : Search α} {bs : List α} {a : α} :
    a ∈ (st.pushAll bs).seen ↔ a ∈ st.seen ∨ a ∈ bs := by
  induction bs generalizing st with
  | nil => simp [pushAll]
  | cons b bs ih => exact ih.trans (by rw [mem_seen_push, List.mem_cons, or_assoc])

/-- Something that becomes known stands in the queue from then on. -/
theorem mem_queue_of_mem_seen_push {st : Search α} {a b : α} (h : a ∈ (st.push b).seen) :
    a ∈ st.seen ∨ a ∈ (st.push b).queue := by
  rw [push] at h ⊢
  split
  case isTrue hb => exact .inl (by rwa [if_pos hb] at h)
  case isFalse hb =>
    rw [if_neg hb] at h
    rcases List.mem_cons.1 h with rfl | h
    · exact .inr (List.mem_append_right _ (.head _))
    · exact .inl h

theorem mem_queue_push_of_mem {st : Search α} {a : α} (b : α) (h : a ∈ st.queue) :
    a ∈ (st.push b).queue := by
  rw [push]
  split
  · exact h
  · exact List.mem_append_left _ h

theorem mem_queue_pushAll_of_mem {st : Search α} {a : α} (bs : List α) (h : a ∈ st.queue) :
    a ∈ (st.pushAll bs).queue := by
  induction bs generalizing st with
  | nil => exact h
  | cons b bs ih => exact ih (mem_queue_push_of_mem b h)

theorem mem_queue_of_mem_seen_pushAll {st : Search α} {bs : List α} {a : α}
    (h : a ∈ (st.pushAll bs).seen) : a ∈ st.seen ∨ a ∈ (st.pushAll bs).queue := by
  induction bs generalizing st with
  | nil => exact .inl h
  | cons b bs ih =>
    rcases ih h with h | h
    · exact (mem_queue_of_mem_seen_push h).imp_right (mem_queue_pushAll_of_mem bs)
    · exact .inr h

/-! ## Visits -/

variable {next : α → List α} (e : Enclosure next)

/-- A search with an empty queue is over. -/
theorem visits_nil {seen : List α} (h : ∀ a ∈ ([] : List α), e.Inside a) :
    visits e ⟨seen, []⟩ h = [] := by
  rw [visits]

/-- A search visits the head of its queue and goes on with what that leads to. -/
theorem visits_cons {seen rest : List α} {a : α} (h : ∀ b ∈ a :: rest, e.Inside b) :
    ∃ h', visits e ⟨seen, a :: rest⟩ h = a :: visits e (pushAll ⟨seen, rest⟩ (next a)) h' := by
  rw [visits]
  exact ⟨_, rfl⟩

theorem visits_eq_nil_iff {st : Search α} (h : ∀ a ∈ st.queue, e.Inside a) :
    st.visits e h = [] ↔ st.queue = [] := by
  obtain ⟨seen, queue⟩ := st
  cases queue with
  | nil => simp [visits_nil]
  | cons a rest =>
    obtain ⟨h', heq⟩ := visits_cons e h
    simp [heq]

theorem mem_visits_of_mem_queue (st : Search α) (h : ∀ a ∈ st.queue, e.Inside a) {b : α}
    (hb : b ∈ st.queue) : b ∈ st.visits e h := by
  induction st, h using visits.induct with
  | case1 st h hq => simp [hq] at hb
  | case2 st h a rest hq inside ih =>
    obtain ⟨seen, queue⟩ := st
    cases hq
    obtain ⟨h', heq⟩ := visits_cons e h
    rw [heq]
    rcases List.mem_cons.1 hb with rfl | hb
    · exact .head _
    · exact .tail _ (ih (mem_queue_pushAll_of_mem _ hb))

/-- Whatever is visited can be reached from the queue. -/
theorem exists_mem_queue_of_mem_visits (st : Search α) (h : ∀ a ∈ st.queue, e.Inside a) {b : α}
    (hb : b ∈ st.visits e h) :
    ∃ a ∈ st.queue, Relation.ReflTransGen (fun x y ↦ y ∈ next x) a b := by
  induction st, h using visits.induct with
  | case1 st h hq =>
    obtain ⟨seen, queue⟩ := st
    cases hq
    rw [visits_nil] at hb
    cases hb
  | case2 st h a rest hq inside ih =>
    obtain ⟨seen, queue⟩ := st
    cases hq
    obtain ⟨h', heq⟩ := visits_cons e h
    rw [heq] at hb
    rcases List.mem_cons.1 hb with rfl | hb
    · exact ⟨b, .head _, .refl⟩
    · obtain ⟨x, hx, hreach⟩ := ih hb
      rcases mem_queue_pushAll hx with hx | hx
      · exact ⟨x, .tail _ hx, hreach⟩
      · exact ⟨a, .head _, .head hx hreach⟩

/-- What a visit leads to was known at the start or is visited too. -/
theorem mem_visits_of_mem_next (st : Search α) (h : ∀ a ∈ st.queue, e.Inside a) {b c : α}
    (hb : b ∈ st.visits e h) (hc : c ∈ next b) : c ∈ st.seen ∨ c ∈ st.visits e h := by
  induction st, h using visits.induct with
  | case1 st h hq =>
    obtain ⟨seen, queue⟩ := st
    cases hq
    rw [visits_nil] at hb
    cases hb
  | case2 st h a rest hq inside ih =>
    obtain ⟨seen, queue⟩ := st
    cases hq
    obtain ⟨h', heq⟩ := visits_cons e h
    rw [heq] at hb ⊢
    -- in the state after the visit of `a`, its successors are known
    have hknown : c ∈ (pushAll ⟨seen, rest⟩ (next a)).seen →
        c ∈ seen ∨ c ∈ a :: visits e (pushAll ⟨seen, rest⟩ (next a)) h' := fun hseen ↦
      (mem_queue_of_mem_seen_pushAll hseen).imp_right fun hqueue ↦
        .tail _ (mem_visits_of_mem_queue e _ h' hqueue)
    rcases List.mem_cons.1 hb with rfl | hb
    · exact hknown (mem_seen_pushAll.2 (.inr hc))
    · rcases ih hb with hseen | hvisit
      · exact hknown hseen
      · exact .inr (.tail _ hvisit)

/-! ## Nothing is visited twice -/

/-- Each element of the queue stands there once and is known. -/
structure Tidy (st : Search α) : Prop where
  nodup : st.queue.Nodup
  known : ∀ a ∈ st.queue, a ∈ st.seen

theorem Tidy.push {st : Search α} (h : st.Tidy) (b : α) : (st.push b).Tidy := by
  rw [Search.push]
  split
  case isTrue => exact h
  case isFalse hb =>
    constructor
    case nodup =>
      refine List.nodup_append.2 ⟨h.nodup, by simp, fun a ha c hc hac ↦ hb ?_⟩
      rw [← List.mem_singleton.1 hc, ← hac]
      exact h.known a ha
    case known =>
      intro a ha
      rcases List.mem_append.1 ha with ha | ha
      · exact .tail _ (h.known a ha)
      · rw [List.mem_singleton.1 ha]
        exact .head _

theorem Tidy.pushAll {st : Search α} (h : st.Tidy) (bs : List α) : (st.pushAll bs).Tidy := by
  induction bs generalizing st with
  | nil => exact h
  | cons b bs ih => exact ih (h.push b)

/-- What comes into the queue was not known before. -/
theorem mem_queue_or_notMem_seen_of_mem_push {st : Search α} {a b : α}
    (h : a ∈ (st.push b).queue) : a ∈ st.queue ∨ a ∉ st.seen := by
  rw [push] at h
  split at h
  case isTrue => exact .inl h
  case isFalse hb =>
    rcases List.mem_append.1 h with h | h
    · exact .inl h
    · exact .inr (List.mem_singleton.1 h ▸ hb)

theorem mem_queue_or_notMem_seen_of_mem_pushAll {st : Search α} {a : α} {bs : List α}
    (h : a ∈ (st.pushAll bs).queue) : a ∈ st.queue ∨ a ∉ st.seen := by
  induction bs generalizing st with
  | nil => exact .inl h
  | cons b bs ih =>
    rcases @ih (st.push b) h with h | h
    · exact mem_queue_or_notMem_seen_of_mem_push h
    · exact .inr fun ha ↦ h (mem_seen_push.2 (.inl ha))

/-- What is visited was in the queue or was not known. -/
theorem mem_queue_or_notMem_seen_of_mem_visits (st : Search α) (h : ∀ a ∈ st.queue, e.Inside a)
    {b : α} (hb : b ∈ st.visits e h) : b ∈ st.queue ∨ b ∉ st.seen := by
  induction st, h using visits.induct with
  | case1 st h hq =>
    obtain ⟨seen, queue⟩ := st
    cases hq
    rw [visits_nil] at hb
    cases hb
  | case2 st h a rest hq inside ih =>
    obtain ⟨seen, queue⟩ := st
    cases hq
    obtain ⟨h', heq⟩ := visits_cons e h
    rw [heq] at hb
    rcases List.mem_cons.1 hb with rfl | hb
    · exact .inl (.head _)
    · rcases ih hb with hb | hb
      · exact (mem_queue_or_notMem_seen_of_mem_pushAll hb).imp_left (.tail _)
      · exact .inr fun hseen ↦ hb (mem_seen_pushAll.2 (.inl hseen))

theorem Tidy.nodup_visits {st : Search α} (htidy : st.Tidy) (h : ∀ a ∈ st.queue, e.Inside a) :
    (st.visits e h).Nodup := by
  induction st, h using visits.induct with
  | case1 st h hq =>
    obtain ⟨seen, queue⟩ := st
    cases hq
    rw [visits_nil]
    exact List.nodup_nil
  | case2 st h a rest hq inside ih =>
    obtain ⟨seen, queue⟩ := st
    cases hq
    obtain ⟨h', heq⟩ := visits_cons e h
    obtain ⟨ha, hrest⟩ := List.nodup_cons.1 htidy.nodup
    have hknown : a ∈ seen := htidy.known a (.head _)
    have htidy' : Tidy ⟨seen, rest⟩ := ⟨hrest, fun b hb ↦ htidy.known b (.tail _ hb)⟩
    rw [heq]
    refine List.nodup_cons.2 ⟨fun hvisit ↦ ?_, ih (htidy'.pushAll _)⟩
    rcases mem_queue_or_notMem_seen_of_mem_visits e _ h' hvisit with hqueue | hnew
    · rcases mem_queue_or_notMem_seen_of_mem_pushAll hqueue with hmem | hnew
      · exact ha hmem
      · exact hnew hknown
    · exact hnew (mem_seen_pushAll.2 (.inl hknown))

end Search

variable {α : Type} [DecidableEq α] {next : α → List α}

/-- A search visits exactly what can be reached from where it starts. -/
theorem mem_breadthFirst (e : Enclosure next) {a b : α} (h : e.Inside a) :
    b ∈ breadthFirst e a h ↔ Relation.ReflTransGen (fun x y ↦ y ∈ next x) a b := by
  have hinside : ∀ x ∈ (Search.start a).queue, e.Inside x := by simpa [Search.start] using h
  have hstart : a ∈ (Search.start a).visits e hinside :=
    Search.mem_visits_of_mem_queue e _ hinside (.head _)
  constructor
  · intro hb
    obtain ⟨x, hx, hreach⟩ := Search.exists_mem_queue_of_mem_visits e _ hinside hb
    rwa [List.mem_singleton.1 hx] at hreach
  · intro hreach
    induction hreach with
    | refl => exact hstart
    | tail _ hstep ih =>
      rcases Search.mem_visits_of_mem_next e _ hinside ih hstep with hseen | hvisit
      · rwa [List.mem_singleton.1 hseen]
      · exact hvisit

theorem nodup_breadthFirst (e : Enclosure next) {a : α} (h : e.Inside a) :
    (breadthFirst e a h).Nodup :=
  Search.Tidy.nodup_visits e ⟨List.nodup_singleton a, fun _ hb ↦ hb⟩ _

end ContextFree
