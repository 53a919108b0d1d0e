import ContextFree.Proofs.Earley.Membership
import ContextFree.Proofs.Language.Prefix

/-!
# The finished chart holds the valid items

An item is valid at a position if the symbols before its dot derive the input from its origin up to
there, and if its left-hand side is looked for at its origin: the start symbol derives a form that
begins with the input before the origin and goes on with the left-hand side.

A run that was not stopped holds exactly the valid items.  Validity is preserved by the rules of the
deduction; and conversely, when the start symbol leads to a non-terminal behind some part of the
input, the productions on the way are all predicted, each where it begins.
-/

namespace ContextFree.Earley

variable {g : Grammar} {w : List Char}

/-- A form derived from the start symbol begins with the input before position `i`, followed by
`back`. -/
def Expects (g : Grammar) (w : List Char) (i : Nat) (back : List Symbol) : Prop :=
  g.Derives [.nonterm g.start] ((slice w 0 i).map .term ++ back)

/-- What an item of the set of position `i` says, by itself and about what stands before it. -/
structure Item.Valid (g : Grammar) (w : List Char) (i : Nat) (item : Item) : Prop where
  production_lt : item.production.index < g.productions.length
  dot_le : item.dot ≤ (g.production item.production).rhs.length
  origin_le : item.origin ≤ i
  derives : g.Derives ((g.production item.production).rhs.take item.dot)
    ((slice w item.origin i).map .term)
  expected : ∃ back, Expects g w item.origin (.nonterm (item.lhs g) :: back)

/-! ## Deduced items are valid -/

/-- What is expected at the origin of an item leads to what is expected behind the dot. -/
theorem Item.Reads.expects {i : Nat} {item : Item} (h : item.Reads g w i) {back : List Symbol}
    (hback : Expects g w item.origin (.nonterm (item.lhs g) :: back)) :
    Expects g w i ((g.production item.production).rhs.drop item.dot ++ back) := by
  have hrhs : g.Derives [.nonterm (item.lhs g)]
      ((slice w item.origin i).map .term ++ (g.production item.production).rhs.drop item.dot) := by
    refine .trans (.of_mem (Grammar.production_mem_of_lt h.production_lt)) ?_
    have hread := h.yields.derives.append_right ((g.production item.production).rhs.drop item.dot)
    rwa [List.take_append_drop] at hread
  have hcontext := (hrhs.append_right back).append_left ((slice w 0 item.origin).map .term)
  refine hback.trans ?_
  rw [← slice_append_slice w (Nat.zero_le _) h.origin_le]
  simpa using hcontext

/-- The left-hand side of a deduced item is expected where the item begins. -/
theorem Deduces.expected {i : Nat} {item : Item} (h : Deduces g w i item) :
    ∃ back, Expects g w item.origin (.nonterm (item.lhs g) :: back) := by
  refine Deduces.induction (P := fun _ item ↦
    ∃ back, Expects g w item.origin (.nonterm (item.lhs g) :: back)) (fun e i item hi ↦ ?_) h
  cases hi with
  | @seeded p hp =>
    have hlhs : (Item.seed p 0).lhs g = g.start := (Grammar.production_of_mem_alternatives hp).2.2
    rw [hlhs]
    exact ⟨[], .refl _⟩
  | @predicted i item b p h hnext hp =>
    obtain ⟨hd, back, hback⟩ := h
    have hlhs : (Item.seed p i).lhs g = b := (Grammar.production_of_mem_alternatives hp).2.2
    have hexpects := hd.reads.expects hback
    obtain ⟨hlt, hget⟩ := List.getElem?_eq_some_iff.1 hnext
    rw [List.drop_eq_getElem_cons hlt, hget] at hexpects
    rw [hlhs]
    exact ⟨_, hexpects⟩
  | scanned h => exact h.2
  | completed _ _ hwaiting => exact hwaiting.2

theorem Deduces.valid {i : Nat} {item : Item} (h : Deduces g w i item) : item.Valid g w i where
  production_lt := h.reads.production_lt
  dot_le := h.reads.dot_le
  origin_le := h.reads.origin_le
  derives := h.reads.yields.derives
  expected := h.expected

/-! ## Valid items are deduced -/

/-- If the symbols behind the dot lead to a symbol behind the input up to `k`, an item with the dot
before that symbol is deduced there. -/
theorem Deduces.exists_next_of_leads {form : List Symbol} {u : List Char} {s : Symbol}
    (hs : g.Leads form u s) {i k : Nat} {item : Item} (h : Deduces g w i item)
    (hform : (g.production item.production).rhs.drop item.dot = form) (hik : i ≤ k)
    (hk : k ≤ w.length) (hslice : slice w i k = u) :
    ∃ item', Deduces g w k item' ∧ item'.next? g = some s := by
  induction hs generalizing i item with
  | here s form =>
    have hlen := length_slice w i hk
    rw [hslice, List.length_nil] at hlen
    obtain rfl : i = k := by omega
    exact ⟨item, h, (Item.next?_of_drop_eq_cons hform).1⟩
  | skip hu _ ih =>
    obtain ⟨m, -, him, hmk, hm, hv⟩ := exists_split_of_slice_eq_append hik hk hslice
    have hread := h.read_on hu hform him (Nat.le_trans hmk hk) hm
    exact ih hread (Item.next?_of_drop_eq_cons hform).2 hmk hv
  | expand hp form _ ih =>
    obtain ⟨q, hq, rfl⟩ := Grammar.exists_mem_alternatives hp
    have hnext := (Item.next?_of_drop_eq_cons hform).1
    exact ih (Deduces.closed _ _ _ (.predicted h hnext hq)) rfl hik hslice

/-- What the start symbol leads to is the start symbol itself, at the beginning, or it stands behind
the dot of a deduced item. -/
theorem exists_next_of_expects {k : Nat} (hk : k ≤ w.length) {s : Symbol} {back : List Symbol}
    (h : Expects g w k (s :: back)) :
    k = 0 ∧ s = .nonterm g.start ∨ ∃ item, Deduces g w k item ∧ item.next? g = some s := by
  rcases Grammar.leads_nonterm_iff.1 (Grammar.leads_iff_derives.2 ⟨back, h⟩) with
    ⟨hslice, hs⟩ | ⟨p, hp, hstart, hleads⟩
  · have hlen := length_slice w 0 hk
    rw [hslice, List.length_nil] at hlen
    exact .inl ⟨by omega, hs⟩
  · obtain ⟨q, hq, rfl⟩ := Grammar.exists_mem_alternatives hp
    have hseed : Deduces g w 0 (.seed q 0) := Deduces.closed _ _ _ (.seeded (hstart ▸ hq))
    exact .inr (hseed.exists_next_of_leads hleads rfl (Nat.zero_le k) hk rfl)

/-- The productions of an expected non-terminal are deduced with the dot in front. -/
theorem deduces_seed_of_expects {j : Nat} (hj : j ≤ w.length) {p : ProdId} {a : NonTerm}
    {back : List Symbol} (h : Expects g w j (.nonterm a :: back)) (hp : p ∈ g.alternatives a) :
    Deduces g w j (.seed p j) := by
  rcases exists_next_of_expects hj h with ⟨rfl, heq⟩ | ⟨item, hd, hnext⟩
  · cases heq
    exact Deduces.closed _ _ _ (.seeded hp)
  · exact Deduces.closed _ _ _ (.predicted hd hnext hp)

theorem Item.Valid.deduces {i : Nat} (hi : i ≤ w.length) {item : Item} (h : item.Valid g w i) :
    Deduces g w i item := by
  obtain ⟨p, dot, origin⟩ := item
  obtain ⟨back, hback⟩ := h.expected
  have hp : p ∈ g.alternatives ((g.production p).lhs) := Grammar.mem_alternatives.2
    ⟨_, List.getElem?_eq_getElem h.production_lt, by rw [Grammar.production_of_lt h.production_lt]⟩
  have hseed := deduces_seed_of_expects (Nat.le_trans h.origin_le hi) hback hp
  have hform : (g.production p).rhs.drop (Item.seed p origin).dot =
      (g.production p).rhs.take dot ++ (g.production p).rhs.drop dot :=
    (List.take_append_drop dot _).symm
  have hread := hseed.read_on (Grammar.yields_iff_derives.2 h.derives) hform h.origin_le hi rfl
  rw [List.length_take, Nat.min_eq_left h.dot_le] at hread
  simpa [Item.seed] using hread

/-- The items that can be deduced at a position of the input are the valid ones. -/
theorem deduces_iff_valid {i : Nat} (hi : i ≤ w.length) {item : Item} :
    Deduces g w i item ↔ item.Valid g w i := ⟨Deduces.valid, Item.Valid.deduces hi⟩

/-! ## Sets that are not empty -/

/-- Behind the first character, something is deduced just if the input up to there begins a
sentential form. -/
theorem exists_deduces_iff {i : Nat} (hpos : 0 < i) (hi : i ≤ w.length) :
    (∃ item, Deduces g w i item) ↔ ∃ back, Expects g w i back := by
  constructor
  · rintro ⟨item, h⟩
    obtain ⟨back, hback⟩ := h.expected
    exact ⟨_, h.reads.expects hback⟩
  · rintro ⟨back, h⟩
    obtain ⟨j, rfl⟩ : ∃ j, i = j + 1 := ⟨i - 1, by omega⟩
    have hc : w[j]? = some w[j] := List.getElem?_eq_getElem hi
    -- the last character is what the start symbol leads to behind the others
    rw [Expects, slice_succ (Nat.zero_le j) hc, List.map_append, List.append_assoc] at h
    rcases exists_next_of_expects (Nat.le_of_succ_le hi) h with ⟨-, heq⟩ | ⟨item, hd, hnext⟩
    · cases heq
    · exact ⟨_, Deduces.closed _ _ _ (.scanned hd hnext hc)⟩

/-- If nothing is deduced at a position, nothing is deduced behind it. -/
theorem not_deduces_of_le {i k : Nat} (hik : i ≤ k) (hk : k ≤ w.length)
    (h : ∀ item, ¬Deduces g w i item) (item : Item) : ¬Deduces g w k item := by
  intro hd
  rcases Nat.eq_zero_or_pos i with rfl | hpos
  · -- without seeds, no rule has a premise
    refine hd (fun _ _ ↦ False) fun e i item hinfers ↦ ?_
    cases hinfers with
    | seeded hp => exact h _ (Deduces.closed _ _ _ (.seeded hp))
    | predicted hfalse => exact hfalse
    | scanned hfalse => exact hfalse
    | completed hfalse => exact hfalse
  · obtain ⟨back, hback⟩ := (exists_deduces_iff (Nat.lt_of_lt_of_le hpos hik) hk).1 ⟨item, hd⟩
    rw [Expects, ← slice_append_slice w (Nat.zero_le i) hik, List.map_append,
      List.append_assoc] at hback
    obtain ⟨item', hd'⟩ :=
      (exists_deduces_iff hpos (Nat.le_trans hik hk)).2 ⟨_, hback⟩
    exact h item' hd'

/-! ## The chart -/

/-- The chart of a recognition that was not exhausted has a set for every position, which holds
exactly the valid items.  Behind the first character, a set is not empty just if the input up to
there begins a sentential form; and behind an empty set, all sets are empty. -/
theorem chart_holds_valid_items {limits : Limits} (hg : g.WellFormed)
    (h : (recognize g w limits).verdict.exhausted? = none) :
    ∃ c, (recognize g w limits).chart = some c ∧ c.sets.size = w.length + 1 ∧
      ∀ i ≤ w.length, ∃ s, c.set? i = some s ∧
        (∀ item, item ∈ s.items ↔ item.Valid g w i) ∧
        (∀ item, s.contains item = true ↔ item.Valid g w i) ∧
        (0 < i → (s.items ≠ #[] ↔
          ∃ back, g.Derives [.nonterm g.start] ((slice w 0 i).map .term ++ back))) ∧
        (s.items = #[] → ∀ k s', i ≤ k → c.set? k = some s' → s'.items = #[]) := by
  obtain ⟨run, hrun, -⟩ := exists_run_of_exhausted?_eq_none h
  have inv := (Run.visited_of_overInput hg.nonErasing hrun).invariant
  have hset : ∀ i ≤ w.length, (Chart.mk g w run.sets).set? i = some (run.set i) :=
    fun i hi ↦ Run.set?_eq_set (inv.size_sets ▸ Nat.lt_succ_of_le hi)
  have hholds : ∀ i item, item ∈ (run.set i).items ↔ Deduces g w i item := fun i item ↦
    Run.holds_iff_deduces hg.nonErasing hrun
  have hempty : ∀ i, (run.set i).items = #[] ↔ ∀ item, ¬Deduces g w i item := fun i ↦ by
    simp only [Array.eq_empty_iff_forall_not_mem, hholds]
  refine ⟨_, chart_eq_of_run (length_le_of_exhausted?_eq_none h) hrun, inv.size_sets,
    fun i hi ↦ ⟨_, hset i hi, fun item ↦ ?_, fun item ↦ ?_, fun hpos ↦ ?_,
      fun hnone k s' hik hk ↦ ?_⟩⟩
  · rw [hholds, deduces_iff_valid hi]
  · rw [(inv.coherent i hi).contains_iff, hholds, deduces_iff_valid hi]
  · rw [ne_eq, hempty, not_forall_not]
    exact exists_deduces_iff hpos hi
  · have hlt : k < run.sets.size := (Array.getElem?_eq_some_iff.1 hk).1
    have hkw : k ≤ w.length := Nat.le_of_lt_succ (lt_of_lt_of_eq hlt inv.size_sets)
    rw [hset k hkw, Option.some.injEq] at hk
    rw [← hk, hempty]
    exact not_deduces_of_le hik hkw ((hempty i).1 hnone)

/-- In `S → A b`, `A → A a | a | U` the non-terminal `U` has no productions.  On `a c b`, the set
behind `a` holds what can follow, and the sets behind `c` are empty. -/
theorem chart_holds_valid_items_dead_end :
    let g : Grammar := ⟨["S", "A", "U"], [⟨⟨0⟩, [.nonterm ⟨1⟩, .term 'b']⟩,
      ⟨⟨1⟩, [.nonterm ⟨1⟩, .term 'a']⟩, ⟨⟨1⟩, [.term 'a']⟩, ⟨⟨1⟩, [.nonterm ⟨2⟩]⟩], ⟨0⟩⟩
    (recognize g ['a', 'c', 'b'] {}).verdict.exhausted? = none ∧
      Item.Valid g ['a', 'c', 'b'] 1 ⟨⟨0⟩, 1, 0⟩ ∧
      ¬∃ back, g.Derives [.nonterm g.start] (['a', 'c'].map .term ++ back) := by
  intro g
  have hverdict : (recognize g ['a', 'c', 'b'] {}).verdict.exhausted? = none := by decide +kernel
  obtain ⟨c, hc, -, hsets⟩ := @chart_holds_valid_items g ['a', 'c', 'b'] {} (by decide) hverdict
  have hitems : (recognize g ['a', 'c', 'b'] {}).chart.map (fun c ↦ c.sets.map (·.items)) =
      some #[#[⟨⟨0⟩, 0, 0⟩, ⟨⟨1⟩, 0, 0⟩, ⟨⟨2⟩, 0, 0⟩, ⟨⟨3⟩, 0, 0⟩],
        #[⟨⟨2⟩, 1, 0⟩, ⟨⟨0⟩, 1, 0⟩, ⟨⟨1⟩, 1, 0⟩], #[], #[]] := by decide +kernel
  rw [hc, Option.map_some, Option.some.injEq] at hitems
  have hget : ∀ i s, c.set? i = some s → (c.sets.map (·.items))[i]? = some s.items := by
    intro i s hs
    rw [Array.getElem?_map]
    exact congrArg (Option.map ItemSet.items) hs
  rw [hitems] at hget
  obtain ⟨s, hs, hvalid, -⟩ := hsets 1 (by decide)
  obtain ⟨s', hs', -, -, hbegins, -⟩ := hsets 2 (by decide)
  have hone : #[⟨⟨2⟩, 1, 0⟩, ⟨⟨0⟩, 1, 0⟩, ⟨⟨1⟩, 1, 0⟩] = s.items := Option.some.inj (hget 1 s hs)
  have htwo : #[] = s'.items := Option.some.inj (hget 2 s' hs')
  refine ⟨hverdict, (hvalid _).1 (by simp [← hone]), fun hback ↦ ?_⟩
  exact (hbegins (by decide)).2 hback htwo.symm

end ContextFree.Earley
