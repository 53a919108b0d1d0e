import ContextFree.Proofs.NormalForm.Binarization

/-!
# Binary form preserves the language

Every non-terminal of a grammar generates the same words in the binary form of the grammar
(`binarize_spec`).
-/

namespace ContextFree

variable {g : Grammar} {a : NonTerm} {w : List Char}

/-- What the productions of a state derive, their meanings derive. -/
theorem Binarization.Invariant.yields_expand {m : Meaning} {st : Binarization}
    (inv : Invariant g m st) {form : List Symbol} (h : (st.grammar g).Yields form w) :
    g.Yields (m.expand form) w := by
  induction h with
  | nil => exact .nil
  | term c _ ih => exact ih.term c
  | nonterm hp _ _ ih ih' => exact (ih.of_derives (inv.derives _ hp)).append ih'

namespace Grammar

/-! ## Shape -/

/-- Sorting the productions changes neither which there are nor anything else. -/
theorem mem_productions_binarize {p : Production} :
    p ∈ g.binarize.productions ↔ p ∈ (g.binarization.grammar g).productions :=
  List.mem_mergeSort

theorem isBinary_binarize (hg : g.WellFormed) : g.binarize.isBinary = true := by
  obtain ⟨m, inv, -⟩ := exists_binarization hg
  exact List.all_eq_true.2 fun p hp ↦ inv.isBinary p (mem_productions_binarize.1 hp)

theorem names_prefix_binarize (hg : g.WellFormed) : g.names <+: g.binarize.names := by
  obtain ⟨m, inv, -⟩ := exists_binarization hg
  exact inv.names_prefix

theorem name_binarize (hg : g.WellFormed) (ha : a.index < g.size) :
    g.binarize.name a = g.name a := by
  obtain ⟨names, hnames⟩ := names_prefix_binarize hg
  simp only [name, ← hnames, List.getD_eq_getElem?_getD, List.getElem?_append_left ha]

/-- The binary form of a grammar that can be built could be built itself. -/
theorem wellFormed_binarize (hg : g.WellFormed) : g.binarize.WellFormed := by
  obtain ⟨m, inv, -⟩ := exists_binarization hg
  constructor
  case names_nodup => exact inv.names_nodup
  case start_lt => exact Nat.lt_of_lt_of_le hg.start_lt inv.names_prefix.length_le
  case lhs_lt =>
    intro p hp
    exact inv.below p (mem_productions_binarize.1 hp) _ (.head _)
  case rhs_ne_nil =>
    intro p hp hnil
    have hbinary := inv.isBinary p (mem_productions_binarize.1 hp)
    simp [Production.isBinary, hnil] at hbinary
  case rhs_owned =>
    intro p hp
    have hbelow := inv.below p (mem_productions_binarize.1 hp)
    exact SententialForm.below_size_iff.1 (SententialForm.below_nonterm_cons.1 hbelow).2

/-! ## Language -/

theorem generates_binarize_iff (hg : g.WellFormed) (ha : a.index < g.size) :
    g.binarize.Generates a w ↔ g.Generates a w := by
  obtain ⟨m, inv, hderives⟩ := exists_binarization hg
  rw [generates_iff_yields, generates_iff_yields]
  constructor
  · intro h
    have hstate : (g.binarization.grammar g).Yields [.nonterm a] w :=
      h.mono fun _ hp ↦ mem_productions_binarize.1 hp
    simpa [inv.original a ha] using inv.yields_expand hstate
  · refine Yields.of_inherited fun p hp r hr ↦ ?_
    exact (hderives p.lhs (hg.lhs_lt p hp) r hr).mono fun q hq ↦ mem_productions_binarize.2 hq

theorem member_binarize_iff (hg : g.WellFormed) : g.binarize.Member w ↔ g.Member w :=
  generates_binarize_iff hg hg.start_lt

/-- A grammar and its binary form agree about every non-terminal of the grammar: it has the same
number and the same name in both, and generates the same words. -/
theorem binarize_spec (hg : g.WellFormed) :
    g.binarize.isBinary = true ∧ g.binarize.start = g.start ∧ g.names <+: g.binarize.names ∧
      (∀ a : NonTerm, a.index < g.size → g.binarize.name a = g.name a ∧
        ∀ w, g.Generates a w ↔ g.binarize.Generates a w) ∧
      ∀ w, g.Member w ↔ g.binarize.Member w :=
  ⟨isBinary_binarize hg, rfl, names_prefix_binarize hg,
    fun _ ha ↦ ⟨name_binarize hg ha, fun _ ↦ (generates_binarize_iff hg ha).symm⟩,
    fun _ ↦ (member_binarize_iff hg).symm⟩

/-- In `S → T | ( S )`, `T → S | x` the unit productions form a cycle. -/
theorem binarize_spec_unit_cycle :
    let g : Grammar := ⟨["S", "T"], [⟨⟨0⟩, [.nonterm ⟨1⟩]⟩,
      ⟨⟨0⟩, [.term '(', .nonterm ⟨0⟩, .term ')']⟩, ⟨⟨1⟩, [.nonterm ⟨0⟩]⟩, ⟨⟨1⟩, [.term 'x']⟩], ⟨0⟩⟩
    g.WellFormed ∧ g.binarize.isBinary = true ∧ g.binarize.Member ['(', 'x', ')'] := by
  intro g
  have hg : g.WellFormed := by decide
  obtain ⟨hbinary, -, -, -, hmember⟩ := binarize_spec hg
  refine ⟨hg, hbinary, (hmember _).1 (generates_iff_yields.2 ?_)⟩
  have hx : g.Yields [.nonterm ⟨0⟩] ['x'] :=
    yields_nonterm_iff.2 ⟨⟨⟨0⟩, [.nonterm ⟨1⟩]⟩, by decide, rfl,
      yields_nonterm_iff.2 ⟨⟨⟨1⟩, [.term 'x']⟩, by decide, rfl, yields_map_term ['x']⟩⟩
  exact yields_nonterm_iff.2 ⟨⟨⟨0⟩, [.term '(', .nonterm ⟨0⟩, .term ')']⟩, by decide, rfl,
    .term '(' (hx.append (yields_map_term [')']))⟩

end Grammar

end ContextFree
