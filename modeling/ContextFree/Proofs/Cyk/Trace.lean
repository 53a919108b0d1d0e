import ContextFree.Cyk.Trace
import ContextFree.Proofs.Cyk.Reasons
import ContextFree.Proofs.Language.Leftmost

/-!
# Traces are leftmost derivations

Each entry of a filled table has a reason that holds good, and the reason names entries of shorter
spans.  So following the reasons comes to an end, and what it spells is a derivation of the span in
pre-order (`Spells`).  In pre-order, what stands to the left of a non-terminal is finished before
that is rewritten: hence the steps can be replayed, each on the leftmost non-terminal.
-/

namespace ContextFree.Cyk

open SententialForm

variable {g : Grammar} {w : List Char}

/-! ## Following reasons -/

/-- The steps that one comes by when the reasons in a chart are followed from a span and a
non-terminal on, wherever they lead.  If the reasons led round in a circle, there would be none. -/
inductive Chart.Unfolds (c : Chart) : Span → NonTerm → List Step → Prop where
  | absent {s : Span} {a : NonTerm} (h : c.backpointer? s a = none) : c.Unfolds s a []
  | terminal {s : Span} {a : NonTerm} {p : ProdId} (h : c.backpointer? s a = some (.terminal p)) :
      c.Unfolds s a [⟨a, p⟩]
  | binary {s : Span} {a l r : NonTerm} {p : ProdId} {k : Nat} {steps steps' : List Step}
      (h : c.backpointer? s a = some (.binary p k))
      (hrhs : (c.grammar.production p).rhs = [.nonterm l, .nonterm r])
      (hleft : c.Unfolds ⟨s.first, k⟩ l steps) (hright : c.Unfolds ⟨k + 1, s.last⟩ r steps') :
      c.Unfolds s a (⟨a, p⟩ :: (steps ++ steps'))

/-- The steps derive the input on a span from a non-terminal, in pre-order. -/
inductive Spells (g : Grammar) (w : List Char) : Span → NonTerm → List Step → Prop where
  | terminal {i : Nat} {r : TerminalRule} (hr : r ∈ terminalRules g)
      (hc : w[i]? = some r.terminal) :
      Spells g w ⟨i, i⟩ r.lhs [⟨r.lhs, r.production⟩]
  | binary {s : Span} {k : Nat} {r : BinaryRule} {steps steps' : List Step}
      (hr : r ∈ binaryRules g) (hfirst : s.first ≤ k) (hlast : k < s.last)
      (hleft : Spells g w ⟨s.first, k⟩ r.left steps)
      (hright : Spells g w ⟨k + 1, s.last⟩ r.right steps') :
      Spells g w s r.lhs (⟨r.lhs, r.production⟩ :: (steps ++ steps'))

section Chart

variable {c : Chart} {s : Span} {a : NonTerm}

/-- The pairs without a reason are those that are not in the chart. -/
theorem backpointer?_eq_none_iff (hc : c.table.Justified c.grammar c.input) :
    c.backpointer? s a = none ↔ ¬c.contains s a = true := by
  rw [← Option.not_isSome_iff_eq_none]
  exact not_congr (hc.isSome_iff s a)

/-- A pair without a reason has no trace. -/
theorem trace_of_eq_none (h : c.backpointer? s a = none) : c.trace s a = [] := by
  rw [Chart.trace, h]

theorem trace_of_terminal {p : ProdId} (h : c.backpointer? s a = some (.terminal p)) :
    c.trace s a = [⟨a, p⟩] := by
  rw [Chart.trace, h]

/-- A production `A → B C` is followed by the traces of its two parts, if the span is split
inside. -/
theorem trace_of_binary {p : ProdId} {k : Nat} {l r : NonTerm}
    (h : c.backpointer? s a = some (.binary p k))
    (hrhs : (c.grammar.production p).rhs = [.nonterm l, .nonterm r]) (hfirst : s.first ≤ k)
    (hlast : k < s.last) :
    c.trace s a = ⟨a, p⟩ :: (c.trace ⟨s.first, k⟩ l ++ c.trace ⟨k + 1, s.last⟩ r) := by
  rw [Chart.trace, h]
  simp only [hrhs, if_pos (And.intro hfirst hlast)]

/-- Following the reasons comes to an end, and the entries on the way spell a derivation.  The
induction is on the length of the span, which both parts of a split fall short of. -/
theorem unfolds_and_spells_trace (hc : c.table.Justified c.grammar c.input)
    (h : c.contains s a = true) :
    c.Unfolds s a (c.trace s a) ∧ Spells c.grammar c.input s a (c.trace s a) := by
  induction hn : s.length using Nat.strongRecOn generalizing s a with
  | ind n ih =>
    obtain ⟨b, hb⟩ := Option.isSome_iff_exists.1 ((hc.isSome_iff s a).2 h)
    cases hc.supports s a b hb with
    | terminal hr hchar =>
      rw [trace_of_terminal hb]
      exact ⟨.terminal hb, .terminal hr hchar⟩
    | @binary _ k r hr hfirst hlast hleft hright =>
      have hrhs := (mem_binaryRules.1 hr).2.2
      rw [trace_of_binary hb hrhs hfirst hlast]
      simp only [Span.length] at hn
      obtain ⟨hunfolds, hspells⟩ :=
        ih _ (by simp only [Span.length]; omega) hleft rfl
      obtain ⟨hunfolds', hspells'⟩ :=
        ih _ (by simp only [Span.length]; omega) hright rfl
      exact ⟨.binary hb hrhs hunfolds hunfolds', .binary hr hfirst hlast hspells hspells'⟩

end Chart

/-! ## Replaying -/

namespace Spells

variable {s : Span} {a : NonTerm} {steps : List Step}

/-- A derivation of `n` characters has `n` steps that end and `n - 1` that branch. -/
theorem length_eq (h : Spells g w s a steps) :
    steps.length = 2 * (s.last - s.first + 1) - 1 := by
  induction h with
  | terminal => simp
  | binary _ hfirst hlast _ _ ih ih' =>
    simp only [List.length_cons, List.length_append, ih, ih']
    omega

theorem lhs_head (h : Spells g w s a steps) : ∃ p steps', steps = ⟨a, p⟩ :: steps' := by
  cases h with
  | terminal => exact ⟨_, _, rfl⟩
  | binary => exact ⟨_, _, rfl⟩

end Spells

/-- A step applies to the non-terminal that follows a finished front. -/
theorem onLeftmost?_map_term_append {a : NonTerm} {p : ProdId} (h : (g.production p).lhs = a)
    (front : List Char) (back : List Symbol) :
    Step.onLeftmost? g (front.map .term ++ .nonterm a :: back) ⟨a, p⟩ =
      some (front.map .term ++ (g.production p).rhs ++ back) := by
  simp [Step.onLeftmost?, leftmost?_map_term_append, h]

theorem rewrite?_cons (g : Grammar) (form : List Symbol) (step : Step) (steps : List Step) :
    rewrite? g form (step :: steps) =
      (step.onLeftmost? g form).bind (rewrite? g · steps) := List.foldlM_cons

theorem rewrite?_append (g : Grammar) (form : List Symbol) (steps steps' : List Step) :
    rewrite? g form (steps ++ steps') = (rewrite? g form steps).bind (rewrite? g · steps') :=
  List.foldlM_append

/-- Behind a front that is finished, the steps turn a non-terminal into what it derives, and leave
the rest as it is. -/
theorem Spells.rewrite?_eq {s : Span} {a : NonTerm} {steps : List Step} (h : Spells g w s a steps)
    (front : List Char) (back : List Symbol) :
    rewrite? g (front.map .term ++ .nonterm a :: back) steps =
      some ((front ++ slice w s.first (s.last + 1)).map .term ++ back) := by
  induction h generalizing front back with
  | @terminal i r hr hc =>
    obtain ⟨-, hp, hrhs⟩ := mem_terminalRules.1 hr
    have hlhs := (Grammar.production_of_mem_alternatives hp).2.2
    rw [rewrite?_cons, onLeftmost?_map_term_append hlhs, hrhs, slice_singleton hc]
    simp [rewrite?]
  | @binary s k r steps steps' hr hfirst hlast _ _ ih ih' =>
    obtain ⟨-, hp, hrhs⟩ := mem_binaryRules.1 hr
    have hlhs := (Grammar.production_of_mem_alternatives hp).2.2
    have hslice := slice_append_slice w (Nat.le_succ_of_le hfirst)
      (Nat.succ_le_succ (Nat.le_of_lt hlast))
    rw [rewrite?_cons, onLeftmost?_map_term_append hlhs, hrhs, Option.bind_some, rewrite?_append,
      List.append_assoc, List.cons_append, ih, Option.bind_some]
    -- the left part is a front now, and the right part is leftmost
    rw [List.singleton_append, ih', List.append_assoc, hslice]

/-- A derivation from another symbol does not begin where a replay does. -/
theorem Spells.replay?_eq {s : Span} {a : NonTerm} {steps : List Step}
    (h : Spells g w s a steps) :
    replay? g steps = if a = g.start then some (slice w s.first (s.last + 1)) else none := by
  split
  case isTrue heq =>
    have hrewrite := h.rewrite?_eq [] []
    rw [List.map_nil, List.nil_append, List.nil_append, List.append_nil, heq] at hrewrite
    rw [replay?, hrewrite, Option.bind_some, word?_map_term]
  case isFalse hne =>
    obtain ⟨p, steps', rfl⟩ := h.lhs_head
    have hstep : Step.onLeftmost? g [.nonterm g.start] ⟨a, p⟩ = none := by
      simp [Step.onLeftmost?, Ne.symm hne]
    rw [replay?, rewrite?_cons, hstep]
    rfl

/-- No steps leave the start symbol as it is, which is no word. -/
theorem replay?_nil (g : Grammar) : replay? g [] = none := rfl

/-! ## Charts -/

/-- A trace is replayed to the input on its span, if it is one of the start symbol. -/
theorem replay?_trace {c : Chart} (hc : c.table.Justified c.grammar c.input) (s : Span)
    (a : NonTerm) :
    replay? c.grammar (c.trace s a) =
      if a = c.grammar.start ∧ c.contains s a = true then
        some (slice c.input s.first (s.last + 1))
      else none := by
  by_cases h : c.contains s a = true
  · simp only [(unfolds_and_spells_trace hc h).2.replay?_eq, h, and_true]
  · rw [trace_of_eq_none ((backpointer?_eq_none_iff hc).2 h), if_neg fun h' ↦ h h'.2, replay?_nil]

/-- The derivation is replayed to the input just if the chart accepts. -/
theorem replay?_derivation {c : Chart} (hc : c.table.Justified c.grammar c.input) :
    replay? c.grammar c.derivation = if c.accepts = true then some c.input else none := by
  rw [Chart.derivation, Chart.accepts, Chart.rootSpan?]
  by_cases hw : c.input = []
  · simp [hw, replay?_nil]
  · have hlast : c.length - 1 + 1 = c.input.length := Nat.sub_add_cancel (List.length_pos_iff.2 hw)
    simp [hw, replay?_trace hc, hlast]

/-- Every trace of a chart is a derivation.  Following the reasons from any pair of a span and a
non-terminal comes to an end; there are no steps just if the pair is not in the chart; and otherwise
the steps, twice as many as the span has positions less one, rewrite the non-terminal, leftmost
first, into the input on the span.  So a trace of the start symbol is replayed to the input on its
span, and the derivation of the chart to the input if the chart accepts. -/
theorem trace_exact {limits : Limits} {memory : Memory} (h : w.length ≤ limits.maxLength)
    (hroom : Table.HasRoom memory w.length g.size) :
    ∃ c, (recognize g w limits memory).chart = some c ∧
      (∀ s a, c.Unfolds s a (c.trace s a) ∧
        (c.trace s a = [] ↔ ¬c.contains s a = true) ∧
        (c.contains s a = true →
          (c.trace s a).length = 2 * (s.last - s.first + 1) - 1 ∧
          rewrite? g [.nonterm a] (c.trace s a) =
            some ((slice w s.first (s.last + 1)).map .term)) ∧
        replay? g (c.trace s a) =
          if a = g.start ∧ c.contains s a = true then some (slice w s.first (s.last + 1))
          else none) ∧
      replay? g c.derivation = if c.accepts = true then some w else none := by
  let c : Chart := ⟨g, w, (fill g w).table⟩
  have hc : c.table.Justified c.grammar c.input := justified_fill g w
  refine ⟨c, chart_eq_some_iff.2 ⟨⟨h, hroom⟩, rfl⟩, fun s a ↦ ?_, replay?_derivation hc⟩
  by_cases hmem : c.contains s a = true
  · obtain ⟨hunfolds, hspells⟩ := unfolds_and_spells_trace hc hmem
    obtain ⟨p, steps, hcons⟩ := hspells.lhs_head
    refine ⟨hunfolds, ?_, fun _ ↦ ⟨hspells.length_eq, ?_⟩, replay?_trace hc s a⟩
    · simp [hmem, hcons]
    · simpa using hspells.rewrite?_eq [] []
  · have hnone := (backpointer?_eq_none_iff hc).2 hmem
    rw [trace_of_eq_none hnone]
    exact ⟨.absent hnone, by simp [hmem], fun h ↦ absurd h hmem, by simp [hmem, replay?_nil]⟩

/-- In the ambiguous grammar `S → S S | a`, the reasons of longer spans are replaced on the way. -/
theorem trace_exact_replaced_reasons :
    let g : Grammar :=
      ⟨["S"], [⟨⟨0⟩, [.nonterm ⟨0⟩, .nonterm ⟨0⟩]⟩, ⟨⟨0⟩, [.term 'a']⟩], ⟨0⟩⟩
    ∃ c, (recognize g ['a', 'a', 'a', 'a'] {}).chart = some c ∧
      (c.trace ⟨1, 3⟩ ⟨0⟩).length = 5 ∧ replay? g (c.trace ⟨1, 3⟩ ⟨0⟩) = some ['a', 'a', 'a'] ∧
      replay? g c.derivation = some ['a', 'a', 'a', 'a'] := by
  intro g
  obtain ⟨c, hc, htrace, hderivation⟩ :=
    @trace_exact g ['a', 'a', 'a', 'a'] {} .standard (by decide) (by decide)
  have haccepts : (recognize g ['a', 'a', 'a', 'a'] {}).chart.map
      (fun c ↦ (c.accepts, c.contains ⟨1, 3⟩ ⟨0⟩)) = some (true, true) := by decide +kernel
  rw [hc, Option.map_some, Option.some.injEq, Prod.mk.injEq] at haccepts
  obtain ⟨-, -, hsteps, hreplay⟩ := htrace ⟨1, 3⟩ ⟨0⟩
  rw [if_pos ⟨rfl, haccepts.2⟩] at hreplay
  rw [if_pos haccepts.1] at hderivation
  exact ⟨c, hc, (hsteps haccepts.2).1, hreplay, hderivation⟩

end ContextFree.Cyk
