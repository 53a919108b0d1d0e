/-!
# Context-free grammars over characters

A grammar is a table of non-terminal names, an ordered list of productions and a start symbol.
Non-terminals and productions are numbered by their places in the two lists.  The order of the
productions is the only priority there is: it decides which derivation a chart keeps, never which
words are accepted.

An index that lies outside its list is *foreign*.  Every query answers it: a foreign non-terminal
has the name `?` and no alternatives.
-/

namespace ContextFree

/-- A non-terminal, numbered by its place in the table of names. -/
@[ext]
structure NonTerm where
  index : Nat
deriving DecidableEq, Repr

/-- The number of a production, its place in the list of productions. -/
@[ext]
structure ProdId where
  index : Nat
deriving DecidableEq, Repr

/-- A symbol of a right-hand side. -/
inductive Symbol where
  | term (c : Char)
  | nonterm (a : NonTerm)
deriving DecidableEq, Repr

namespace Symbol

/-- The character of a terminal. -/
def term? : Symbol → Option Char
  | .term c => some c
  | .nonterm _ => none

/-- The index of a non-terminal. -/
def nonterm? : Symbol → Option NonTerm
  | .term _ => none
  | .nonterm a => some a

@[simp] theorem term?_term (c : Char) : (Symbol.term c).term? = some c := rfl
@[simp] theorem term?_nonterm (a : NonTerm) : (Symbol.nonterm a).term? = none := rfl
@[simp] theorem nonterm?_term (c : Char) : (Symbol.term c).nonterm? = none := rfl
@[simp] theorem nonterm?_nonterm (a : NonTerm) : (Symbol.nonterm a).nonterm? = some a := rfl

end Symbol

/-- A production `A → X₁ … Xₘ`. -/
structure Production where
  lhs : NonTerm
  rhs : List Symbol
deriving DecidableEq, Repr

namespace Production

/-- A right-hand side of the form `B C` with two non-terminals, or `a` with one terminal. -/
def isBinary (p : Production) : Bool :=
  match p.rhs with
  | [.term _] => true
  | [.nonterm _, .nonterm _] => true
  | _ => false

/-- The non-terminal `B` of a unit production `A → B`. -/
def unit? (p : Production) : Option NonTerm :=
  match p.rhs with
  | [.nonterm b] => some b
  | _ => none

theorem isBinary_iff {p : Production} : p.isBinary = true ↔
    (∃ c, p.rhs = [.term c]) ∨ ∃ b c, p.rhs = [.nonterm b, .nonterm c] := by
  rw [isBinary]
  split <;> simp_all

theorem unit?_eq_some_iff {p : Production} {b : NonTerm} :
    p.unit? = some b ↔ p.rhs = [.nonterm b] := by
  rw [unit?]
  split
  case h_1 c h => simp [h]
  case h_2 h =>
    simp only [reduceCtorEq, false_iff]
    exact h b

end Production

/-- A context-free grammar with named non-terminals. -/
structure Grammar where
  names : List String
  productions : List Production
  start : NonTerm
deriving DecidableEq, Repr

namespace Grammar

/-- The start symbol of a grammar that names no other. -/
def defaultStart : String := "S"

/-! ## Non-terminals -/

/-- The number of non-terminals. -/
def size (g : Grammar) : Nat := g.names.length

/-- The non-terminals in the order of their numbers. -/
def nonterms (g : Grammar) : List NonTerm := (List.range g.size).map NonTerm.mk

/-- The name of a non-terminal, `?` for a foreign one. -/
def name (g : Grammar) (a : NonTerm) : String := g.names.getD a.index "?"

/-- The first non-terminal of a given name. -/
def lookup (g : Grammar) (name : String) : Option NonTerm := (g.names.idxOf? name).map NonTerm.mk

/-! ## Productions -/

/-- The production of a given number.  A foreign number stands for an empty production of a
non-terminal outside the grammar. -/
def production (g : Grammar) (p : ProdId) : Production :=
  match g.productions[p.index]? with
  | some q => q
  | none => ⟨⟨g.size⟩, []⟩

/-- The productions of a non-terminal, in ascending order. -/
def alternatives (g : Grammar) (a : NonTerm) : List ProdId :=
  g.productions.zipIdx.filterMap fun (p, i) ↦ if p.lhs = a then some ⟨i⟩ else none

/-- The terminals of the right-hand sides, each once, in ascending order. -/
def terminals (g : Grammar) : List Char :=
  ((g.productions.flatMap (·.rhs)).filterMap Symbol.term?).eraseDups.mergeSort (· ≤ ·)

/-- Every production is `A → a` or `A → B C`. -/
def isBinary (g : Grammar) : Bool := g.productions.all (·.isBinary)

/-! ## Well-formed grammars -/

/-- A symbol that is a terminal or a non-terminal of the grammar. -/
def Owns (g : Grammar) (s : Symbol) : Prop := ∀ a, s.nonterm? = some a → a.index < g.size

/-- The grammars that the builder makes: names are distinct, right-hand sides are not empty, and
no index is foreign. -/
structure WellFormed (g : Grammar) : Prop where
  names_nodup : g.names.Nodup
  start_lt : g.start.index < g.size
  lhs_lt : ∀ p ∈ g.productions, p.lhs.index < g.size
  rhs_ne_nil : ∀ p ∈ g.productions, p.rhs ≠ []
  rhs_owned : ∀ p ∈ g.productions, ∀ s ∈ p.rhs, g.Owns s

instance (g : Grammar) (s : Symbol) : Decidable (g.Owns s) :=
  match s with
  | .term _ => .isTrue fun _ h ↦ nomatch h
  | .nonterm a => decidable_of_iff (a.index < g.size)
    ⟨fun h _ heq ↦ Option.some.inj heq ▸ h, fun h ↦ h a rfl⟩

instance (g : Grammar) : Decidable g.WellFormed :=
  decidable_of_iff (g.names.Nodup ∧ g.start.index < g.size ∧
      (∀ p ∈ g.productions, p.lhs.index < g.size) ∧ (∀ p ∈ g.productions, p.rhs ≠ []) ∧
      ∀ p ∈ g.productions, ∀ s ∈ p.rhs, g.Owns s)
    ⟨fun ⟨h₁, h₂, h₃, h₄, h₅⟩ ↦ ⟨h₁, h₂, h₃, h₄, h₅⟩,
      fun ⟨h₁, h₂, h₃, h₄, h₅⟩ ↦ ⟨h₁, h₂, h₃, h₄, h₅⟩⟩

/-! ## Basic equations -/

@[simp] theorem mem_nonterms {g : Grammar} {a : NonTerm} : a ∈ g.nonterms ↔ a.index < g.size := by
  cases a
  simp [nonterms]

theorem name_of_lt {g : Grammar} {a : NonTerm} (h : a.index < g.names.length) :
    g.name a = g.names[a.index] := by simp [name, h]

theorem production_of_lt {g : Grammar} {p : ProdId} (h : p.index < g.productions.length) :
    g.production p = g.productions[p.index] := by simp [production, h]

theorem mem_alternatives {g : Grammar} {a : NonTerm} {i : ProdId} :
    i ∈ g.alternatives a ↔ ∃ p, g.productions[i.index]? = some p ∧ p.lhs = a := by
  cases i
  simp [alternatives, List.mem_zipIdx_iff_getElem?]

theorem production_mem_of_lt {g : Grammar} {i : ProdId} (h : i.index < g.productions.length) :
    g.production i ∈ g.productions := by
  rw [production_of_lt h]
  exact List.getElem_mem h

/-- An alternative of a non-terminal is the number of one of its productions. -/
theorem production_of_mem_alternatives {g : Grammar} {a : NonTerm} {i : ProdId}
    (h : i ∈ g.alternatives a) :
    i.index < g.productions.length ∧ g.production i ∈ g.productions ∧
      (g.production i).lhs = a := by
  obtain ⟨p, hp, rfl⟩ := mem_alternatives.1 h
  obtain ⟨hlt, rfl⟩ := List.getElem?_eq_some_iff.1 hp
  exact ⟨hlt, production_mem_of_lt hlt, by rw [production_of_lt hlt]⟩

/-- Every production is an alternative of its left-hand side. -/
theorem exists_mem_alternatives {g : Grammar} {p : Production} (h : p ∈ g.productions) :
    ∃ i ∈ g.alternatives p.lhs, g.production i = p := by
  obtain ⟨n, hlt, rfl⟩ := List.mem_iff_getElem.1 h
  refine ⟨⟨n⟩, mem_alternatives.2 ⟨_, List.getElem?_eq_getElem hlt, rfl⟩, ?_⟩
  rw [production_of_lt hlt]

end Grammar

end ContextFree
