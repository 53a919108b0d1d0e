import ContextFree.Proofs.Grammar.Building
import ContextFree.Proofs.Grammar.Renaming

/-!
# What a builder builds, in names

Written with names in the places of numbers, what a builder builds can be said without the table
(`Builder.Spells`): the productions are its rules, word by word, and the names are those that it asks
for, at their first occurrences.  It builds a grammar just if no name that it defines is empty and
no rule comes to nothing (`Builder.exists_build_iff`).

The order of the steps only shows in the numbers (`Builder.exists_renames_of_perm`).
-/

namespace ContextFree

namespace NameTable

theorem Grows.getElem? {t t' : NameTable} (h : Grows t t') {i : Nat} {name : String}
    (hi : t.names[i]? = some name) : t'.names[i]? = some name := by
  obtain ⟨more, hmore⟩ := h.names
  obtain ⟨hlt, -⟩ := List.getElem?_eq_some_iff.1 hi
  rw [← hmore, List.getElem?_append_left hlt, hi]

/-- A name that was asked for stands at its number. -/
theorem getElem?_intern (name : String) (t : NameTable) :
    (t.intern name).2.names[(t.intern name).1.index]? = some name := by
  cases h : t.names.idxOf? name with
  | some i =>
    rw [intern_of_idxOf? h]
    obtain ⟨hi, hname, -⟩ := List.idxOf?_eq_some_iff.1 h
    exact List.getElem?_eq_some_iff.2 ⟨hi, hname⟩
  | none =>
    rw [intern_of_notMem (List.idxOf?_eq_none_iff.1 h)]
    simp

theorem grows_internAll (names : List String) (t : NameTable) : Grows t (t.internAll names) := by
  induction names generalizing t with
  | nil => exact .refl
  | cons name names ih => exact (intern_spec name t).1.trans (ih _)

end NameTable

/-- The names in a production that is written with names. -/
def Spelled.names (q : Spelled String) : List String := q.1 :: q.2.filterMap Sum.getRight?

namespace Builder

/-! ## Rules in names -/

/-- What a raw symbol stands for. -/
def spellSymbol (defined : List String) : RawSymbol → List (Char ⊕ String)
  | .term c => [.inl c]
  | .nonterm name => [.inr name]
  | .word w => if w ∈ defined then [.inr w] else w.toList.map .inl

/-- What a rule stands for. -/
def spellRule (defined : List String) (r : Rule) : Spelled String :=
  (r.lhs, r.rhs.raw.flatMap (spellSymbol defined))

/-- The name of the start symbol. -/
def startName (b : Builder) : String := b.start.getD Grammar.defaultStart

/-- The names that are asked for, in that order. -/
def askedNames (b : Builder) : List String :=
  b.declared ++ b.rules.map (·.lhs) ++
    b.rules.flatMap (fun r ↦ (spellRule b.defined r).names) ++ [b.startName]

theorem mem_askedNames {b : Builder} {name : String} : name ∈ b.askedNames ↔
    name ∈ b.declared ∨ (∃ r ∈ b.rules, r.lhs = name) ∨
      (∃ r ∈ b.rules, .inr name ∈ (spellRule b.defined r).2) ∨ name = b.startName := by
  have hnames : ∀ r, name ∈ (spellRule b.defined r).names ↔
      r.lhs = name ∨ .inr name ∈ (spellRule b.defined r).2 := by
    intro r
    simp [Spelled.names, spellRule, eq_comm]
  simp only [askedNames, List.mem_append, List.mem_map, List.mem_flatMap, hnames, List.mem_cons,
    List.not_mem_nil, or_false]
  constructor
  · rintro (((h | h) | ⟨r, hr, h | h⟩) | h)
    · exact .inl h
    · exact .inr (.inl h)
    · exact .inr (.inl ⟨r, hr, h⟩)
    · exact .inr (.inr (.inl ⟨r, hr, h⟩))
    · exact .inr (.inr (.inr h))
  · rintro (h | h | ⟨r, hr, h⟩ | h)
    · exact .inl (.inl (.inl h))
    · exact .inl (.inl (.inr h))
    · exact .inl (.inr ⟨r, hr, .inr h⟩)
    · exact .inr h

/-- Nothing is wrong with the names and the rules. -/
structure Buildable (b : Builder) : Prop where
  declared_ne : ∀ name ∈ b.declared, name ≠ ""
  lhs_ne : ∀ r ∈ b.rules, r.lhs ≠ ""
  rhs_ne : ∀ r ∈ b.rules, (spellRule b.defined r).2 ≠ []

/-- The grammar says what the builder says. -/
structure Spells (b : Builder) (g : Grammar) : Prop where
  names : g.names = b.askedNames.eraseDups
  productions : g.productions.map (·.spell g.name) = b.rules.map (spellRule b.defined)
  start : g.name g.start = b.startName

/-! ## Runs -/

open NameTable (Grows grows_internAll)
open Builder.Numbering

/-- The name of a number in a table. -/
def nameIn (t : NameTable) (a : NonTerm) : String := t.names.getD a.index "?"

/-- From every table on, the computation asks for the given names, and its result reads as `v`, also
when the table has grown. -/
def Asks {α β : Type} (x : Numbering α) (names : List String) (read : NameTable → α → β) (v : β) :
    Prop :=
  ∀ t, ∃ a, x t = .ok (a, t.internAll names) ∧
    ∀ t', Grows (t.internAll names) t' → read t' a = v

theorem asks_number (name : String) : Asks (number name) [name] nameIn name := by
  intro t
  refine ⟨(t.intern name).1, rfl, fun t' hgrows ↦ ?_⟩
  have hname := hgrows.getElem? (NameTable.getElem?_intern name t)
  simp [nameIn, hname]

theorem asks_mapM {α β γ : Type} {f : α → Numbering β} {names : α → List String}
    {read : NameTable → β → γ} {v : α → γ} {l : List α}
    (h : ∀ a ∈ l, Asks (f a) (names a) read (v a)) :
    Asks (l.mapM f) (l.flatMap names) (fun t bs ↦ bs.map (read t)) (l.map v) := by
  induction l with
  | nil => exact fun t ↦ ⟨[], rfl, fun _ _ ↦ rfl⟩
  | cons a l ih =>
    obtain ⟨ha, hl⟩ := List.forall_mem_cons.1 h
    intro t
    obtain ⟨b, hb, hread⟩ := ha t
    obtain ⟨bs, hbs, hreads⟩ := ih hl (t.internAll (names a))
    rw [List.flatMap_cons, NameTable.internAll_append]
    refine ⟨b :: bs, ?_, fun t' hgrows ↦ ?_⟩
    · rw [List.mapM_cons, bind_apply hb, bind_apply hbs]
      rfl
    · exact congrArg₂ List.cons (hread t' ((grows_internAll _ _).trans hgrows)) (hreads t' hgrows)

theorem asks_resolveSymbol (defined : List String) (s : RawSymbol) :
    Asks (resolveSymbol defined s) ((spellSymbol defined s).filterMap Sum.getRight?)
      (fun t form ↦ form.map (·.spell (nameIn t))) (spellSymbol defined s) := by
  have hnumbered : ∀ name,
      Asks (do return [.nonterm (← number name)] : Numbering (List Symbol)) [name]
        (fun t form ↦ form.map (·.spell (nameIn t))) [.inr name] := by
    intro name t
    obtain ⟨a, ha, hread⟩ := asks_number name t
    refine ⟨[.nonterm a], ?_, fun t' hgrows ↦ ?_⟩
    · rw [bind_apply ha]
      rfl
    · exact congrArg (fun name ↦ [Sum.inr name]) (hread t' hgrows)
  cases s with
  | term c => exact fun t ↦ ⟨[.term c], rfl, fun _ _ ↦ rfl⟩
  | nonterm name => exact hnumbered name
  | word w =>
    rw [resolveSymbol, spellSymbol]
    split
    · exact hnumbered w
    · refine fun t ↦ ⟨w.toList.map .term, ?_, fun t' _ ↦ ?_⟩
      · have hnone : (w.toList.map (Sum.inl : Char → Char ⊕ String)).filterMap Sum.getRight? = [] := by
          simp
        rw [hnone]
        rfl
      · exact List.map_map

/-- The right-hand side of a rule, resolved symbol by symbol. -/
theorem asks_resolveSymbols (defined : List String) (r : Rule) :
    Asks (r.rhs.raw.mapM (resolveSymbol defined))
      ((spellRule defined r).2.filterMap Sum.getRight?)
      (fun t forms ↦ forms.flatten.map (·.spell (nameIn t))) (spellRule defined r).2 := by
  intro t
  obtain ⟨forms, hforms, hread⟩ :=
    asks_mapM (l := r.rhs.raw) (fun s _ ↦ asks_resolveSymbol defined s) t
  rw [← List.filterMap_flatMap] at hforms hread
  refine ⟨forms, hforms, fun t' hgrows ↦ ?_⟩
  exact List.map_flatten.trans (congrArg List.flatten (hread t' hgrows))

/-- A rule that stands for nothing is an error. -/
theorem resolveRule_error {defined : List String} {r : Rule} (h : (spellRule defined r).2 = [])
    (t : NameTable) : resolveRule defined r t = .error (.emptyProduction r.lhs) := by
  obtain ⟨lhs, hlhs, -⟩ := asks_number r.lhs t
  obtain ⟨forms, hforms, hreads⟩ := asks_resolveSymbols defined r (t.internAll [r.lhs])
  have hspell : forms.flatten.map _ = (spellRule defined r).2 := hreads _ .refl
  rw [h, List.map_eq_nil_iff] at hspell
  rw [resolveRule_eq, bind_apply hlhs, bind_apply hforms, if_pos hspell]
  rfl

theorem asks_resolveRule {defined : List String} {r : Rule} (h : (spellRule defined r).2 ≠ []) :
    Asks (resolveRule defined r) (spellRule defined r).names (fun t p ↦ p.spell (nameIn t))
      (spellRule defined r) := by
  intro t
  obtain ⟨lhs, hlhs, hread⟩ := asks_number r.lhs t
  obtain ⟨forms, hforms, hreads⟩ := asks_resolveSymbols defined r (t.internAll [r.lhs])
  have hne : forms.flatten ≠ [] := by
    intro hnil
    have hspell : forms.flatten.map _ = (spellRule defined r).2 := hreads _ .refl
    rw [hnil] at hspell
    exact h hspell.symm
  refine ⟨⟨lhs, forms.flatten⟩, ?_, fun t' hgrows ↦ ?_⟩
  · rw [resolveRule_eq, bind_apply hlhs, bind_apply hforms, if_neg hne]
    rfl
  · have hgrows' : Grows (t.internAll [r.lhs]) t' := (grows_internAll _ _).trans hgrows
    exact Prod.ext (hread t' hgrows') (hreads t' hgrows)

/-! ## Building -/

variable {b : Builder} {g : Grammar}

/-- Where nothing is wrong, there is a grammar that says what the builder says. -/
theorem Buildable.exists_build (h : b.Buildable) : ∃ g, b.build = .ok g ∧ b.Spells g := by
  have hdeclared := forM_declared h.declared_ne
  have hlhs : b.rules.forM (declare .emptyLhs ·.lhs) (NameTable.internAll b.declared {}) =
      .ok ((), NameTable.internAll (b.declared ++ b.rules.map (·.lhs)) {}) := by
    rw [NameTable.internAll_append]
    exact forM_lhs h.lhs_ne _
  obtain ⟨productions, hproductions, hread⟩ :=
    asks_mapM (fun r hr ↦ asks_resolveRule (h.rhs_ne r hr))
      (NameTable.internAll (b.declared ++ b.rules.map (·.lhs)) {})
  rw [← NameTable.internAll_append] at hproductions hread
  obtain ⟨start, hstart, hreadStart⟩ := asks_number b.startName (NameTable.internAll
    (b.declared ++ b.rules.map (·.lhs) ++ b.rules.flatMap fun r ↦ (spellRule b.defined r).names) {})
  rw [← NameTable.internAll_append] at hstart hreadStart
  have hresolve : b.resolve {} =
      .ok ((productions, start), NameTable.internAll b.askedNames {}) := by
    rw [resolve, bind_apply hdeclared, bind_apply hlhs, bind_apply hproductions]
    exact bind_apply hstart
  refine ⟨⟨(NameTable.internAll b.askedNames {}).names, productions, start⟩, ?_, ?_, ?_, ?_⟩
  · rw [build, hresolve]
    rfl
  · exact NameTable.names_internAll _
  · refine hread (NameTable.internAll b.askedNames {}) ?_
    rw [askedNames, NameTable.internAll_append _ [b.startName]]
    exact grows_internAll _ _
  · exact hreadStart _ .refl

/-- All runs of a computation that went through all elements. -/
theorem exists_of_forM_eq_ok {α : Type} {f : α → Numbering PUnit} {t t' : NameTable} {u : PUnit}
    {l : List α} (h : l.forM f t = .ok (u, t')) : ∀ a ∈ l, ∃ t₁ r, f a t₁ = .ok r := by
  induction l generalizing t with
  | nil => nofun
  | cons a l ih =>
    obtain ⟨_, t₁, ha, h⟩ := bind_eq_ok h
    exact List.forall_mem_cons.2 ⟨⟨t, _, ha⟩, ih h⟩

theorem exists_of_mapM_eq_ok {α β : Type} {f : α → Numbering β} {t t' : NameTable} {bs : List β}
    {l : List α} (h : l.mapM f t = .ok (bs, t')) : ∀ a ∈ l, ∃ t₁ r, f a t₁ = .ok r := by
  induction l generalizing t t' bs with
  | nil => nofun
  | cons a l ih =>
    rw [List.mapM_cons] at h
    obtain ⟨_, t₁, ha, h⟩ := bind_eq_ok h
    obtain ⟨_, t₂, hl, -⟩ := bind_eq_ok h
    exact List.forall_mem_cons.2 ⟨⟨t, _, ha⟩, ih hl⟩

theorem ne_of_declare_eq_ok {error : GrammarError} {name : String} {t : NameTable}
    {r : Unit × NameTable} (h : declare error name t = .ok r) : name ≠ "" := by
  rintro rfl
  rw [declare, if_pos rfl] at h
  obtain ⟨_, _, hthrow, -⟩ := bind_eq_ok h
  cases hthrow

theorem ne_of_resolveRule_eq_ok {defined : List String} {r : Rule} {t : NameTable}
    {result : Production × NameTable} (h : resolveRule defined r t = .ok result) :
    (spellRule defined r).2 ≠ [] := by
  intro hnil
  rw [resolveRule_error hnil] at h
  cases h

theorem buildable_of_build (h : b.build = .ok g) : b.Buildable := by
  obtain ⟨t₁, t₂, t₃, hdeclared, hlhs, hrules, -⟩ := exists_phases_of_build h
  constructor
  case declared_ne =>
    intro name hname
    obtain ⟨_, _, hrun⟩ := exists_of_forM_eq_ok hdeclared name hname
    exact ne_of_declare_eq_ok hrun
  case lhs_ne =>
    intro r hr
    obtain ⟨_, _, hrun⟩ := exists_of_forM_eq_ok hlhs r hr
    exact ne_of_declare_eq_ok hrun
  case rhs_ne =>
    intro r hr
    obtain ⟨_, _, hrun⟩ := exists_of_mapM_eq_ok hrules r hr
    exact ne_of_resolveRule_eq_ok hrun

/-- A builder builds just if nothing is wrong with its names and its rules. -/
theorem exists_build_iff : (∃ g, b.build = .ok g) ↔ b.Buildable :=
  ⟨fun ⟨_, h⟩ ↦ buildable_of_build h, fun h ↦ h.exists_build.imp fun _ ↦ And.left⟩

theorem spells_of_build (h : b.build = .ok g) : b.Spells g := by
  obtain ⟨g', h', hspells⟩ := (buildable_of_build h).exists_build
  obtain rfl : g = g' := Except.ok.inj (h.symm.trans h')
  exact hspells

/-! ## The order of the steps -/

section Order

variable {b' : Builder}

/-- Another order of what was collected. -/
structure Permutes (b b' : Builder) : Prop where
  start : b.start = b'.start
  declared : b.declared.Perm b'.declared
  rules : b.rules.Perm b'.rules

theorem Permutes.symm (h : Permutes b b') : Permutes b' b :=
  ⟨h.start.symm, h.declared.symm, h.rules.symm⟩

/-- One element is the last one in every order. -/
theorem getLast?_eq_of_perm {α : Type} {l l' : List α} (h : l.Perm l') (hle : l.length ≤ 1) :
    l.getLast? = l'.getLast? := by
  match l with
  | [] => rw [h.nil_eq]
  | [a] => rw [List.perm_singleton.1 h.symm]
  | a :: a' :: l => simp at hle

theorem permutes_ofSteps {steps steps' : List BuilderStep} (h : steps.Perm steps')
    (hstart : (steps.filterMap (·.startName?)).length ≤ 1) :
    Permutes (ofSteps steps) (ofSteps steps') := by
  refine ⟨?_, ?_, ?_⟩
  · rw [start_ofSteps, start_ofSteps]
    exact getLast?_eq_of_perm (h.filterMap _) hstart
  · rw [declared_ofSteps, declared_ofSteps]
    exact h.filterMap _
  · rw [rules_ofSteps, rules_ofSteps]
    exact h.filterMap _

theorem Permutes.mem_defined_iff (h : Permutes b b') {name : String} :
    name ∈ b.defined ↔ name ∈ b'.defined :=
  (h.declared.append (h.rules.map _)).mem_iff

/-- A rule stands for the same, as the same words are defined. -/
theorem Permutes.spellRule_eq (h : Permutes b b') : spellRule b.defined = spellRule b'.defined := by
  have hsymbol : spellSymbol b.defined = spellSymbol b'.defined := by
    funext s
    cases s with
    | term c => rfl
    | nonterm name => rfl
    | word w => simp only [spellSymbol, h.mem_defined_iff]
  funext r
  rw [spellRule, spellRule, hsymbol]

theorem Permutes.buildable (h : Permutes b b') (hb : b.Buildable) : b'.Buildable where
  declared_ne name hname := hb.declared_ne name (h.declared.mem_iff.2 hname)
  lhs_ne r hr := hb.lhs_ne r (h.rules.mem_iff.2 hr)
  rhs_ne r hr := h.spellRule_eq ▸ hb.rhs_ne r (h.rules.mem_iff.2 hr)

theorem Permutes.askedNames_perm (h : Permutes b b') : b.askedNames.Perm b'.askedNames := by
  rw [askedNames, askedNames, startName, startName, h.start, h.spellRule_eq]
  exact ((h.declared.append (h.rules.map _)).append (h.rules.flatMap_right _)).append_right _

/-- The order of what was collected only shows in the numbers. -/
theorem Permutes.exists_renames (h : Permutes b b') {g' : Grammar} (hg : b.build = .ok g)
    (hg' : b'.build = .ok g') : ∃ σ, Grammar.Renames σ g g' := by
  have hspells := spells_of_build hg
  have hspells' := spells_of_build hg'
  have hwell := build_wellFormed hg
  have hwell' := build_wellFormed hg'
  refine Grammar.exists_renames_of_spelling g.name g'.name hwell'
    (fun _ _ ↦ Grammar.name_injective hwell') ?_ ?_ ?_
  · rw [hspells.start, hspells'.start, startName, startName, h.start]
  · rw [Grammar.map_name_nonterms, Grammar.map_name_nonterms]
    refine (List.perm_ext_iff_of_nodup hwell.names_nodup hwell'.names_nodup).2 fun name ↦ ?_
    rw [hspells.names, hspells'.names, List.mem_eraseDups, List.mem_eraseDups]
    exact h.askedNames_perm.mem_iff
  · rw [hspells.productions, hspells'.productions, h.spellRule_eq]
    exact h.rules.map _

end Order

end Builder

end ContextFree
