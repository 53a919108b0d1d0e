import ContextFree.Proofs.Grammar.Resolved

/-!
# What steps describe

Steps describe a grammar, or the reason why there is none, in terms of the whole list of them
(`described`): its names are listed at their first occurrences, and the meaning of a word hangs on
what is defined by any step, also a later one.  Building goes through the steps phase by phase, with
a table that grows, and comes to the same (`Builder.build_eq_described`).
-/

namespace ContextFree

/-! ## The description -/

/-- The name that is marked as a non-terminal. -/
def RawSymbol.marked? : RawSymbol → Option String
  | .nonterm name => some name
  | _ => none

namespace BuilderStep

/-- The left-hand side of the rule that a step adds. -/
def lhs? : BuilderStep → Option String
  | .rule lhs _ => some lhs
  | .production lhs _ => some lhs
  | _ => none

/-- The names that a step marks as non-terminals on the right. -/
def markedNames : BuilderStep → List String
  | .production _ rhs => rhs.filterMap (·.marked?)
  | _ => []

/-- What the rule of a step stands for.  A character of a text is a word. -/
def spelled? (defined : List String) : BuilderStep → Option (Spelled String)
  | .rule lhs rhs => some (lhs, rhs.flatMap (Builder.spellSymbol defined <| .word ·.toString))
  | .production lhs rhs => some (lhs, rhs.flatMap (Builder.spellSymbol defined))
  | _ => none

end BuilderStep

/-- The number of a name is its first place in a list of names. -/
def placeIn (names : List String) (name : String) : NonTerm := ⟨names.idxOf name⟩

/-- What steps come to.  An empty declared name counts before an empty left-hand side, and that
before the first rule that stands for nothing. -/
def described (steps : List BuilderStep) : Except GrammarError Grammar :=
  let declared := steps.filterMap (·.declaredName?)
  let lhss := steps.filterMap (·.lhs?)
  let marked := steps.flatMap (·.markedNames)
  let start := (steps.filterMap (·.startName?)).getLast?.getD Grammar.defaultStart
  let rules := steps.filterMap (·.spelled? (declared ++ lhss))
  if "" ∈ declared then .error .emptyName
  else if "" ∈ lhss then .error .emptyLhs
  else match rules.find? (·.2 = []) with
    | some rule => .error (.emptyProduction rule.1)
    | none =>
      let names := (declared ++ lhss ++ marked ++ [start]).eraseDups
      .ok ⟨names, rules.map (·.production (placeIn names)), placeIn names start⟩

/-- The number of a name that is listed once. -/
theorem Grammar.placeIn_name {g : Grammar} (hg : g.WellFormed) {a : NonTerm}
    (ha : a.index < g.names.length) : placeIn g.names (g.name a) = a := by
  rw [placeIn, Grammar.name_of_lt ha, hg.names_nodup.idxOf_getElem]

/-- Lists of non-terminals with the same names are the same. -/
theorem Grammar.map_name_inj {g : Grammar} (hg : g.WellFormed) {l l' : List NonTerm}
    (hl : ∀ a ∈ l, a.index < g.size) (hl' : ∀ a ∈ l', a.index < g.size) :
    l.map g.name = l'.map g.name ↔ l = l' := by
  have hplace : ∀ l : List NonTerm, (∀ a ∈ l, a.index < g.size) →
      (l.map g.name).map (placeIn g.names) = l := by
    intro l hl
    rw [List.map_map]
    exact (List.map_congr_left fun a ha ↦ Grammar.placeIn_name hg (hl a ha)).trans (List.map_id l)
  constructor
  · intro h
    rw [← hplace l hl, h, hplace l' hl']
  · exact congrArg _

namespace Builder

open Builder.Numbering

variable {b : Builder}

/-! ## Runs that fail -/

namespace Numbering

variable {α β : Type} {t t' : NameTable} {e : GrammarError}

/-- Nothing comes after an error. -/
theorem bind_error {x : Numbering α} (f : α → Numbering β) (h : x t = .error e) :
    (x >>= f) t = .error e := by
  change Except.bind (x t) _ = _
  rw [h]
  rfl

/-- The first element that fails decides the error. -/
theorem mapM_append_error {f : α → Numbering β} {l : List α} {a : α} {bs : List β}
    (hl : l.mapM f t = .ok (bs, t')) (ha : f a t' = .error e) (l' : List α) :
    (l ++ a :: l').mapM f t = .error e := by
  rw [List.mapM_append, bind_apply hl, List.mapM_cons]
  exact bind_error _ (bind_error _ ha)

end Numbering

theorem forM_declare_error {α : Type} (error : GrammarError) (name : α → String) {l : List α}
    (h : "" ∈ l.map name) (t : NameTable) : l.forM (declare error ∘ name) t = .error error := by
  induction l generalizing t with
  | nil => cases h
  | cons a l ih =>
    by_cases ha : name a = ""
    · refine bind_error _ ?_
      rw [Function.comp_apply, declare, if_pos ha]
      exact bind_error _ rfl
    · have hdeclare : declare error (name a) t = .ok ((), (t.intern (name a)).2) := by
        rw [declare, if_neg ha]
        rfl
      have hl : "" ∈ l.map name := (List.mem_cons.1 h).resolve_left (Ne.symm ha)
      exact (bind_apply hdeclare).trans (ih hl _)

theorem build_error {e : GrammarError} (h : b.resolve {} = .error e) : b.build = .error e := by
  rw [build, h]
  rfl

theorem build_of_declared (h : "" ∈ b.declared) : b.build = .error .emptyName := by
  have hforM := forM_declare_error .emptyName id (l := b.declared) (by simpa using h) {}
  rw [Function.comp_id] at hforM
  exact build_error (bind_error _ hforM)

theorem build_of_lhs (hdeclared : ∀ name ∈ b.declared, name ≠ "")
    (h : "" ∈ b.rules.map (·.lhs)) : b.build = .error .emptyLhs := by
  refine build_error ?_
  rw [resolve, bind_apply (forM_declared hdeclared)]
  exact bind_error _ (forM_declare_error .emptyLhs Rule.lhs h _)

theorem build_of_rhs (hdeclared : ∀ name ∈ b.declared, name ≠ "")
    (hlhs : ∀ r ∈ b.rules, r.lhs ≠ "") {before after : List Rule} {r : Rule}
    (hrules : b.rules = before ++ r :: after)
    (hbefore : ∀ r' ∈ before, (spellRule b.defined r').2 ≠ [])
    (h : (spellRule b.defined r).2 = []) : b.build = .error (.emptyProduction r.lhs) := by
  obtain ⟨productions, hproductions, -⟩ :=
    asks_mapM (fun r hr ↦ asks_resolveRule (hbefore r hr))
      (NameTable.internAll (b.rules.map (·.lhs)) (NameTable.internAll b.declared {}))
  have hmapM := mapM_append_error hproductions (resolveRule_error h _) after
  rw [← hrules] at hmapM
  refine build_error ?_
  rw [resolve, bind_apply (forM_declared hdeclared), bind_apply (forM_lhs hlhs _)]
  exact bind_error _ hmapM

/-! ## Steps and what they collect -/

/-- The names that right-hand sides mark as non-terminals. -/
def markedNames (b : Builder) : List String :=
  b.rules.flatMap (·.rhs.raw.filterMap (·.marked?))

section Steps

variable (steps : List BuilderStep)

theorem map_lhs_rules_ofSteps : (ofSteps steps).rules.map (·.lhs) = steps.filterMap (·.lhs?) := by
  rw [rules_ofSteps, List.map_filterMap]
  congr 1
  funext s
  cases s <;> rfl

theorem defined_ofSteps : (ofSteps steps).defined =
    steps.filterMap (·.declaredName?) ++ steps.filterMap (·.lhs?) := by
  rw [defined, declared_ofSteps, map_lhs_rules_ofSteps]

theorem map_spellRule_rules_ofSteps (defined : List String) :
    (ofSteps steps).rules.map (spellRule defined) = steps.filterMap (·.spelled? defined) := by
  rw [rules_ofSteps, List.map_filterMap]
  congr 1
  funext s
  cases s <;>
    simp [BuilderStep.rule?, BuilderStep.spelled?, spellRule, RawRhs.raw, List.flatMap_map]

theorem startName_ofSteps : (ofSteps steps).startName =
    (steps.filterMap (·.startName?)).getLast?.getD Grammar.defaultStart := by
  rw [startName, start_ofSteps]

theorem markedNames_ofSteps : (ofSteps steps).markedNames = steps.flatMap (·.markedNames) := by
  rw [markedNames, rules_ofSteps]
  induction steps with
  | nil => rfl
  | cons s steps ih =>
    rw [List.flatMap_cons, ← ih]
    cases s <;>
      simp [BuilderStep.rule?, BuilderStep.markedNames, RawRhs.raw, RawSymbol.marked?]

end Steps

/-! ## Names that are asked for -/

/-- Of the names on a right-hand side, those that are not defined are marked. -/
theorem removeAll_names_spellRule {defined : List String} {r : Rule} (h : r.lhs ∈ defined) :
    (spellRule defined r).names.removeAll defined =
      (r.rhs.raw.filterMap (·.marked?)).removeAll defined := by
  have hsymbol : ∀ s : RawSymbol,
      ((spellSymbol defined s).filterMap Sum.getRight?).removeAll defined =
        s.marked?.toList.removeAll defined := by
    intro s
    cases s with
    | term c => rfl
    | nonterm name => rfl
    | word w =>
      rw [spellSymbol]
      split
      case isTrue hw => simp [List.removeAll, RawSymbol.marked?, hw]
      case isFalse => simp [List.removeAll, RawSymbol.marked?]
  rw [Spelled.names, spellRule, List.filterMap_flatMap, List.filterMap_eq_flatMap_toList,
    List.removeAll, List.filter_cons_of_neg (by simpa using h), List.removeAll, List.filter_flatMap,
    List.filter_flatMap]
  exact List.flatMap_congr fun s _ ↦ hsymbol s

theorem lhs_mem_defined {r : Rule} (h : r ∈ b.rules) : r.lhs ∈ b.defined :=
  List.mem_append_right _ (List.mem_map_of_mem h)

/-- Every other name that a right-hand side asks for has been asked for before. -/
theorem eraseDups_askedNames (b : Builder) :
    b.askedNames.eraseDups = (b.defined ++ b.markedNames ++ [b.startName]).eraseDups := by
  have hrules : (b.rules.flatMap fun r ↦ (spellRule b.defined r).names).removeAll b.defined =
      b.markedNames.removeAll b.defined := by
    rw [markedNames, List.removeAll, List.removeAll, List.filter_flatMap, List.filter_flatMap]
    exact List.flatMap_congr fun r hr ↦ removeAll_names_spellRule (lhs_mem_defined hr)
  have hbehind : ((b.rules.flatMap fun r ↦ (spellRule b.defined r).names) ++
      [b.startName]).removeAll b.defined = (b.markedNames ++ [b.startName]).removeAll b.defined := by
    rw [List.removeAll, List.filter_append, ← List.removeAll, hrules, List.removeAll,
      ← List.filter_append]
    rfl
  rw [askedNames, ← defined, List.append_assoc, List.append_assoc, List.eraseDups_append, hbehind,
    ← List.eraseDups_append]

/-! ## Building what is described -/

/-- A grammar that reads as the builder has the numbers of its names. -/
theorem Spells.eq {g : Grammar} (h : b.Spells g) (hg : g.WellFormed) : g =
    ⟨g.names, (b.rules.map (spellRule b.defined)).map (·.production (placeIn g.names)),
      placeIn g.names b.startName⟩ := by
  have hplace : ∀ a : NonTerm, a.index < g.size → placeIn g.names (g.name a) = a :=
    fun _ ↦ Grammar.placeIn_name hg
  have hproductions : (b.rules.map (spellRule b.defined)).map (·.production (placeIn g.names)) =
      g.productions := by
    rw [← h.productions, List.map_map]
    refine (List.map_congr_left fun p hp ↦ ?_).trans (List.map_id _)
    rw [Function.comp_apply, Production.production_spell]
    exact Production.rename_eq_self hg hplace hp
  rw [hproductions, ← h.start, hplace _ hg.start_lt]

/-- A builder builds a grammar just if nothing is wrong and the grammar reads as the builder. -/
theorem build_eq_ok_iff {g : Grammar} (hg : g.WellFormed) :
    b.build = .ok g ↔ b.Buildable ∧ b.Spells g := by
  constructor
  · exact fun h ↦ ⟨buildable_of_build h, spells_of_build h⟩
  · rintro ⟨hb, hspells⟩
    obtain ⟨g', hbuild, hspells'⟩ := hb.exists_build
    have hnames : g.names = g'.names := hspells.names.trans hspells'.names.symm
    rw [hbuild, hspells.eq hg, hnames, ← hspells'.eq (build_wellFormed hbuild)]

/-- Building comes to what the steps describe. -/
theorem build_eq_described (steps : List BuilderStep) :
    (ofSteps steps).build = described steps := by
  rw [described, ← defined_ofSteps, ← declared_ofSteps, ← map_lhs_rules_ofSteps,
    ← map_spellRule_rules_ofSteps, ← markedNames_ofSteps, ← startName_ofSteps]
  generalize ofSteps steps = b
  dsimp only
  split
  case isTrue hdeclared => exact build_of_declared hdeclared
  case isFalse hdeclared =>
    have hdeclared : ∀ name ∈ b.declared, name ≠ "" := fun name h heq ↦ hdeclared (heq ▸ h)
    split
    case isTrue hlhs => exact build_of_lhs hdeclared hlhs
    case isFalse hlhs =>
      have hlhs : ∀ r ∈ b.rules, r.lhs ≠ "" := fun r h heq ↦
        hlhs (heq ▸ List.mem_map_of_mem h)
      split
      case h_1 rule hrule =>
        rw [List.find?_map] at hrule
        obtain ⟨r, hfind, rfl⟩ := Option.map_eq_some_iff.1 hrule
        obtain ⟨hr, before, after, hrules, hbefore⟩ := List.find?_eq_some_iff_append.1 hfind
        exact build_of_rhs hdeclared hlhs hrules (by simpa using hbefore) (by simpa using hr)
      case h_2 hrule =>
        have hrhs : ∀ r ∈ b.rules, (spellRule b.defined r).2 ≠ [] := by
          simpa using List.find?_eq_none.1 hrule
        obtain ⟨g, hbuild, hspells⟩ := Buildable.exists_build ⟨hdeclared, hlhs, hrhs⟩
        rw [hbuild, ← eraseDups_askedNames, ← hspells.names]
        exact congrArg Except.ok (hspells.eq (build_wellFormed hbuild))

/-- `B` is declared last, so it is a non-terminal in every rule, and `b` is none. -/
example : described [.rule "S" ['b', 'B'], .production "B" [.word "Sb", .nonterm "X"],
      .start "T", .nonterm "B"] =
    .ok ⟨["B", "S", "X", "T"], [⟨⟨1⟩, [.term 'b', .nonterm ⟨0⟩]⟩,
      ⟨⟨0⟩, [.term 'S', .term 'b', .nonterm ⟨2⟩]⟩], ⟨3⟩⟩ := by decide

end Builder

end ContextFree
