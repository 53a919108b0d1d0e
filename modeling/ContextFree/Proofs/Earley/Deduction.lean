import ContextFree.Earley.Chart
import ContextFree.Proofs.Language.Slice
import ContextFree.Proofs.Language.Yield

/-!
# Deducing items

Left-to-right recognition, read as a system of rules: from items at their positions, a rule infers
one more.  The items that can be deduced are the least collection that the rules do not leave.  No
order is left in this reading, and no limit.

`Deduces.reads` and `Deduces.read_on` compare it with the grammar: a deduced item has read the part
of the input from its origin to its position, and it can read on whatever its remaining symbols
yield.  Hence `member_iff_deduces`.
-/

namespace ContextFree.Earley

variable {g : Grammar} {w : List Char}

/-! ## Rules -/

/-- One rule: which item at which position follows from the items that `In` tells of, and the event
that reports it. -/
inductive Infers (g : Grammar) (w : List Char) (In : Nat → Item → Prop) :
    Event → Nat → Item → Prop where
  | seeded {p : ProdId} (hp : p ∈ g.alternatives g.start) :
      Infers g w In (.seeded (.seed p 0)) 0 (.seed p 0)
  | predicted {i : Nat} {item : Item} {b : NonTerm} {p : ProdId} (h : In i item)
      (hnext : item.next? g = some (.nonterm b)) (hp : p ∈ g.alternatives b) :
      Infers g w In (.predicted i (.seed p i)) i (.seed p i)
  | scanned {i : Nat} {item : Item} {c : Char} (h : In i item)
      (hnext : item.next? g = some (.term c)) (hc : w[i]? = some c) :
      Infers g w In (.scanned (i + 1) item.advance) (i + 1) item.advance
  | completed {i : Nat} {item waiting : Item} (h : In i item) (hnext : item.next? g = none)
      (hwaiting : In item.origin waiting)
      (hawaited : waiting.next? g = some (.nonterm (item.lhs g))) :
      Infers g w In (.completed i waiting.advance) i waiting.advance

theorem Infers.mono {In In' : Nat → Item → Prop} (hsub : ∀ i item, In i item → In' i item)
    {e : Event} {i : Nat} {item : Item} (h : Infers g w In e i item) : Infers g w In' e i item := by
  cases h with
  | seeded hp => exact .seeded hp
  | predicted h hnext hp => exact .predicted (hsub _ _ h) hnext hp
  | scanned h hnext hc => exact .scanned (hsub _ _ h) hnext hc
  | completed h hnext hw hawaited => exact .completed (hsub _ _ h) hnext (hsub _ _ hw) hawaited

/-- No rule leads out of a collection of items. -/
def Closed (g : Grammar) (w : List Char) (In : Nat → Item → Prop) : Prop :=
  ∀ e i item, Infers g w In e i item → In i item

/-- The item lies in every collection that no rule leads out of. -/
def Deduces (g : Grammar) (w : List Char) (i : Nat) (item : Item) : Prop :=
  ∀ In, Closed g w In → In i item

namespace Deduces

theorem closed : Closed g w (Deduces g w) :=
  fun _ _ _ h In hIn ↦ hIn _ _ _ (h.mono fun _ _ h' ↦ h' In hIn)

/-- What the rules preserve holds of every deduced item. -/
theorem induction {P : Nat → Item → Prop}
    (h : ∀ e i item, Infers g w (fun i item ↦ Deduces g w i item ∧ P i item) e i item → P i item)
    {i : Nat} {item : Item} (hd : Deduces g w i item) : P i item :=
  (hd (fun i item ↦ Deduces g w i item ∧ P i item) fun e i item hi ↦
    ⟨closed _ _ _ (hi.mono fun _ _ h' ↦ h'.1), h e i item hi⟩).2

end Deduces

/-! ## What a deduced item has read -/

/-- The symbols before the dot yield the input from the item's origin up to a position. -/
structure Item.Reads (g : Grammar) (w : List Char) (i : Nat) (item : Item) : Prop where
  production_lt : item.production.index < g.productions.length
  dot_le : item.dot ≤ (g.production item.production).rhs.length
  origin_le : item.origin ≤ i
  position_le : i ≤ w.length
  yields : g.Yields ((g.production item.production).rhs.take item.dot) (slice w item.origin i)

namespace Item

theorem Reads.seed {p : ProdId} {a : NonTerm} (h : p ∈ g.alternatives a) {i : Nat}
    (hi : i ≤ w.length) : (Item.seed p i).Reads g w i where
  production_lt := (Grammar.production_of_mem_alternatives h).1
  dot_le := Nat.zero_le _
  origin_le := Nat.le_refl _
  position_le := hi
  yields := by simp [Item.seed]

/-- The symbol after the dot splits the right-hand side. -/
theorem take_dot_succ {item : Item} {s : Symbol} (h : item.next? g = some s) :
    (g.production item.production).rhs.take (item.dot + 1) =
      (g.production item.production).rhs.take item.dot ++ [s] := by
  obtain ⟨hlt, rfl⟩ := List.getElem?_eq_some_iff.1 h
  exact List.take_succ_eq_append_getElem hlt

/-- An item that has read up to `i` moves on to `j` over a symbol that yields what lies between. -/
theorem Reads.advance {i j : Nat} {item : Item} {s : Symbol} (h : item.Reads g w i)
    (hnext : item.next? g = some s) (hij : i ≤ j) (hj : j ≤ w.length)
    (hs : g.Yields [s] (slice w i j)) : item.advance.Reads g w j where
  production_lt := h.production_lt
  dot_le := (List.getElem?_eq_some_iff.1 hnext).1
  origin_le := Nat.le_trans h.origin_le hij
  position_le := hj
  yields := by
    change g.Yields ((g.production item.production).rhs.take (item.dot + 1)) _
    rw [take_dot_succ hnext]
    change g.Yields _ (slice w item.origin j)
    rw [← slice_append_slice w h.origin_le hij]
    exact h.yields.append hs

/-- A complete item has its left-hand side yield what it has read. -/
theorem Reads.yields_lhs {i : Nat} {item : Item} (h : item.Reads g w i)
    (hnext : item.next? g = none) : g.Yields [.nonterm (item.lhs g)] (slice w item.origin i) := by
  have hyields := h.yields
  rw [List.take_of_length_le (next?_eq_none_iff.1 hnext)] at hyields
  exact Grammar.yields_nonterm_iff.2 ⟨_, Grammar.production_mem_of_lt h.production_lt, rfl, hyields⟩

/-- Without empty productions, a complete item looks back to an earlier position. -/
theorem Reads.origin_lt (hg : g.NonErasing) {i : Nat} {item : Item} (h : item.Reads g w i)
    (hnext : item.next? g = none) : item.origin < i := by
  have hlen := (h.yields_lhs hnext).length_le hg
  rw [length_slice w _ h.position_le] at hlen
  simp only [List.length_singleton] at hlen
  omega

end Item

/-- A deduced item has read the input from its origin to its position. -/
theorem Deduces.reads {i : Nat} {item : Item} (h : Deduces g w i item) : item.Reads g w i := by
  refine h.induction fun e i item hi ↦ ?_
  cases hi with
  | seeded hp => exact .seed hp (Nat.zero_le _)
  | predicted h _ hp => exact .seed hp h.2.position_le
  | scanned h hnext hc =>
    have hlt := (List.getElem?_eq_some_iff.1 hc).1
    refine h.2.advance hnext (Nat.le_succ _) hlt ?_
    rw [slice_singleton hc]
    exact .term _ .nil
  | completed h hnext hwaiting hawaited =>
    exact hwaiting.2.advance hawaited h.2.origin_le h.2.position_le (h.2.yields_lhs hnext)

/-! ## What a deduced item can read -/

/-- The symbols from the dot on begin with the one after the dot; moving on leaves the others. -/
theorem Item.next?_of_drop_eq_cons {item : Item} {s : Symbol} {form : List Symbol}
    (h : (g.production item.production).rhs.drop item.dot = s :: form) :
    item.next? g = some s ∧
      (g.production item.advance.production).rhs.drop item.advance.dot = form := by
  constructor
  · rw [next?, ← List.head?_drop, h, List.head?_cons]
  · change (g.production item.production).rhs.drop (item.dot + 1) = form
    rw [← List.drop_drop, h, List.drop_one, List.tail_cons]

/-- An item whose next symbols yield the input up to `k` is deduced there with the dot behind them.
The induction is on that yield: a non-terminal is predicted where the item stands, its production is
read to the end, and the item moves on from there. -/
theorem Deduces.read_on {form : List Symbol} {v : List Char} (hv : g.Yields form v) {i k : Nat}
    {item : Item} {rest : List Symbol} (h : Deduces g w i item)
    (hform : (g.production item.production).rhs.drop item.dot = form ++ rest) (hik : i ≤ k)
    (hk : k ≤ w.length) (hslice : slice w i k = v) :
    Deduces g w k { item with dot := item.dot + form.length } := by
  induction hv generalizing i k item rest with
  | nil =>
    have hlen := length_slice w i hk
    rw [hslice, List.length_nil] at hlen
    obtain rfl : i = k := by omega
    exact h
  | @term c form _ _ ih =>
    obtain ⟨hlt, hc, hrest⟩ := eq_and_slice_of_cons hk hslice
    obtain ⟨hnext, hform'⟩ := Item.next?_of_drop_eq_cons hform
    have hread := @ih _ _ item.advance rest (closed _ _ _ (.scanned h hnext hc)) hform' hlt hk hrest
    rwa [List.length_cons, Nat.add_comm form.length, ← Nat.add_assoc]
  | @nonterm p form u v hp hrhs _ ih ih' =>
    obtain ⟨q, hq, rfl⟩ := Grammar.exists_mem_alternatives hp
    obtain ⟨m, -, him, hmk, hu, hv⟩ := exists_split_of_slice_eq_append hik hk hslice
    obtain ⟨hnext, hform'⟩ := Item.next?_of_drop_eq_cons hform
    have hseed : Deduces g w i (.seed q i) := closed _ _ _ (.predicted h hnext hq)
    have hread := ih hseed (List.append_nil _).symm him (Nat.le_trans hmk hk) hu
    have hcomplete : Item.IsComplete g
        { Item.seed q i with dot := (Item.seed q i).dot + (g.production q).rhs.length } :=
      Nat.le_add_left _ _
    have hadvance : Deduces g w m item.advance :=
      closed _ _ _ (.completed hread (Item.next?_eq_none_iff.2 hcomplete) h hnext)
    have hread' := @ih' _ _ item.advance rest hadvance hform' hmk hk hv
    rwa [List.length_cons, Nat.add_comm form.length, ← Nat.add_assoc]

/-- The start symbol derives the input just if one of its productions is deduced complete at the
end of the input. -/
theorem member_iff_deduces :
    g.Member w ↔ ∃ p ∈ g.alternatives g.start,
      Deduces g w w.length ⟨p, (g.production p).rhs.length, 0⟩ := by
  rw [Grammar.Member, Grammar.generates_iff]
  constructor
  · rintro ⟨q, hq, hstart, hyields⟩
    obtain ⟨p, hp, rfl⟩ := Grammar.exists_mem_alternatives hq
    rw [hstart] at hp
    have hseed : Deduces g w 0 (.seed p 0) := Deduces.closed _ _ _ (.seeded hp)
    have hread := hseed.read_on hyields (List.append_nil _).symm (Nat.zero_le _) (Nat.le_refl _)
      (slice_zero_length w)
    exact ⟨p, hp, by simpa [Item.seed] using hread⟩
  · rintro ⟨p, hp, h⟩
    obtain ⟨-, hmem, hlhs⟩ := Grammar.production_of_mem_alternatives hp
    refine ⟨_, hmem, hlhs, ?_⟩
    simpa using h.reads.yields

end ContextFree.Earley
