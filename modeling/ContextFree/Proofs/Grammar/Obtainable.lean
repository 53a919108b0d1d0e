import ContextFree.Notation.Reader
import ContextFree.Proofs.NormalForm.Language

/-!
# The grammars that there are

A grammar is built step by step, read from a text, or brought into binary form; there is no other
way to get one.  Each of them is well formed (`Obtainable.wellFormed`), so what is shown of
well-formed grammars holds of all that a program can come by.
-/

namespace ContextFree

/-! ## Numbering names -/

namespace NameTable

/-- A table went on from another: old names keep their places, and no name gets two. -/
structure Grows (t t' : NameTable) : Prop where
  names : t.names <+: t'.names
  nodup : t.names.Nodup → t'.names.Nodup

variable {t t' t'' : NameTable}

theorem Grows.refl : Grows t t := ⟨List.prefix_rfl, id⟩

theorem Grows.trans (h : Grows t t') (h' : Grows t' t'') : Grows t t'' :=
  ⟨h.names.trans h'.names, h'.nodup ∘ h.nodup⟩

theorem Grows.lt (h : Grows t t') {a : NonTerm} (ha : a.index < t.names.length) :
    a.index < t'.names.length :=
  Nat.lt_of_lt_of_le ha h.names.length_le

theorem intern_spec (name : String) (t : NameTable) :
    Grows t (t.intern name).2 ∧ (t.intern name).1.index < (t.intern name).2.names.length := by
  cases h : t.names.idxOf? name with
  | some i =>
    rw [intern_of_idxOf? h]
    exact ⟨.refl, (List.findIdx?_eq_some_iff_findIdx_eq.1 h).1⟩
  | none =>
    have hnew : name ∉ t.names := List.idxOf?_eq_none_iff.1 h
    rw [intern_of_notMem hnew]
    refine ⟨⟨List.prefix_append _ _, fun hnodup ↦ ?_⟩, by simp⟩
    refine List.nodup_append.2 ⟨hnodup, by simp, ?_⟩
    rintro other hother _ hname rfl
    exact hnew (List.mem_singleton.1 hname ▸ hother)

end NameTable

/-- A right-hand side in symbols, where each character is a word. -/
def RawRhs.raw : RawRhs → List RawSymbol
  | .chars s => s.map (.word ·.toString)
  | .symbols s => s

namespace Builder

open NameTable (Grows)
open SententialForm

/-! ## Runs of a numbering -/

namespace Numbering

variable {α β : Type} {t t' t'' : NameTable}

theorem bind_eq_ok {x : Numbering α} {f : α → Numbering β} {b : β}
    (h : (x >>= f) t = .ok (b, t'')) : ∃ a t', x t = .ok (a, t') ∧ f a t' = .ok (b, t'') := by
  cases hx : x t with
  | error e =>
    change Except.bind (x t) _ = _ at h
    rw [hx] at h
    cases h
  | ok r =>
    change Except.bind (x t) _ = _ at h
    rw [hx] at h
    exact ⟨r.1, r.2, rfl, h⟩

theorem pure_eq_ok {a b : α} (h : (pure a : Numbering α) t = .ok (b, t')) : a = b ∧ t = t' :=
  Prod.mk.inj (Except.ok.inj h)

/-- What holds of each element and its result, and still holds when the table has grown, holds of
all results. -/
theorem mapM_eq_ok {f : α → Numbering β} {P : α → β → NameTable → Prop}
    (hf : ∀ a t b t', f a t = .ok (b, t') → Grows t t' ∧ P a b t')
    (hmono : ∀ a b t t', Grows t t' → P a b t → P a b t') {l : List α} {bs : List β}
    (h : l.mapM f t = .ok (bs, t')) :
    Grows t t' ∧ bs.length = l.length ∧ ∀ b ∈ bs, ∃ a ∈ l, P a b t' := by
  induction l generalizing t bs with
  | nil =>
    rw [List.mapM_nil] at h
    obtain ⟨rfl, rfl⟩ := pure_eq_ok h
    exact ⟨.refl, rfl, nofun⟩
  | cons a l ih =>
    rw [List.mapM_cons] at h
    obtain ⟨b, t₁, ha, h⟩ := bind_eq_ok h
    obtain ⟨bs', t₂, hl, h⟩ := bind_eq_ok h
    obtain ⟨rfl, rfl⟩ := pure_eq_ok h
    obtain ⟨hgrow₁, hb⟩ := hf a t b t₁ ha
    obtain ⟨hgrow₂, hlength, hbs⟩ := ih hl
    refine ⟨hgrow₁.trans hgrow₂, congrArg (· + 1) hlength, List.forall_mem_cons.2 ⟨?_, ?_⟩⟩
    · exact ⟨a, .head _, hmono _ _ _ _ hgrow₂ hb⟩
    · intro b' hb'
      obtain ⟨a', ha', hP⟩ := hbs b' hb'
      exact ⟨a', .tail _ ha', hP⟩

theorem forM_eq_ok {f : α → Numbering PUnit} (hf : ∀ a t u t', f a t = .ok (u, t') → Grows t t')
    {l : List α} {u : PUnit} (h : l.forM f t = .ok (u, t')) : Grows t t' := by
  induction l generalizing t with
  | nil =>
    obtain ⟨-, rfl⟩ := pure_eq_ok h
    exact .refl
  | cons a l ih =>
    obtain ⟨_, t₁, ha, h⟩ := bind_eq_ok h
    exact (hf _ _ _ _ ha).trans (ih h)

end Numbering

/-! ## Characters as words -/

/-- A character stands for what it stands for as a word. -/
theorem resolveSymbol_word_char (defined : List String) (c : Char) :
    resolveSymbol defined (.word c.toString) =
      do return [← resolveChar (singles defined) c] := by
  rw [resolveSymbol, resolveChar]
  by_cases hc : c.toString ∈ defined
  · rw [if_pos hc, if_pos (mem_singles.2 hc), bind_assoc]
    rfl
  · rw [if_neg hc, if_neg (mt mem_singles.1 hc)]
    simp

/-- Right-hand sides of both kinds are resolved as symbols. -/
theorem resolveRhs_eq (defined : List String) (rhs : RawRhs) :
    resolveRhs defined rhs = do return (← rhs.raw.mapM (resolveSymbol defined)).flatten := by
  cases rhs with
  | symbols s => rfl
  | chars s =>
    rw [resolveRhs, RawRhs.raw, List.mapM_map]
    induction s with
    | nil => rfl
    | cons c s ih =>
      rw [List.mapM_cons, List.mapM_cons, ih, Function.comp_apply, resolveSymbol_word_char]
      simp

theorem resolveRule_eq (defined : List String) (r : Rule) : resolveRule defined r = do
    let lhs ← number r.lhs
    let forms ← r.rhs.raw.mapM (resolveSymbol defined)
    if forms.flatten = [] then throw (.emptyProduction r.lhs)
    return ⟨lhs, forms.flatten⟩ := by
  rw [resolveRule, resolveRhs_eq]
  simp

/-! ## Phases of building -/

open Builder.Numbering

variable {t t' : NameTable}

theorem number_spec {name : String} {a : NonTerm} (h : number name t = .ok (a, t')) :
    Grows t t' ∧ a.index < t'.names.length := by
  have hspec := NameTable.intern_spec name t
  rwa [Except.ok.inj h] at hspec

theorem declare_spec {error : GrammarError} {name : String} {u : Unit}
    (h : declare error name t = .ok (u, t')) : Grows t t' := by
  rw [declare] at h
  split at h
  · obtain ⟨_, t₁, hthrow, -⟩ := bind_eq_ok h
    cases hthrow
  · obtain ⟨a, t₁, hnumber, h⟩ := bind_eq_ok h
    obtain ⟨-, rfl⟩ := pure_eq_ok h
    exact (number_spec hnumber).1

theorem resolveSymbol_spec {defined : List String} {s : RawSymbol} {form : List Symbol}
    (h : resolveSymbol defined s t = .ok (form, t')) : Grows t t' ∧ Below t'.names.length form := by
  have hnumbered : ∀ name, (do return [.nonterm (← number name)] : Numbering (List Symbol)) t =
      .ok (form, t') → Grows t t' ∧ Below t'.names.length form := by
    intro name h
    obtain ⟨a, t₁, hnumber, h⟩ := bind_eq_ok h
    obtain ⟨rfl, rfl⟩ := pure_eq_ok h
    obtain ⟨hgrows, hlt⟩ := number_spec hnumber
    exact ⟨hgrows, by simpa [Below] using hlt⟩
  cases s with
  | term c =>
    obtain ⟨rfl, rfl⟩ := pure_eq_ok h
    exact ⟨.refl, by simp [Below]⟩
  | nonterm name => exact hnumbered name h
  | word w =>
    rw [resolveSymbol] at h
    split at h
    · exact hnumbered w h
    · obtain ⟨rfl, rfl⟩ := pure_eq_ok h
      exact ⟨.refl, by simp [Below]⟩

theorem resolveRule_spec {defined : List String} {r : Rule} {p : Production}
    (h : resolveRule defined r t = .ok (p, t')) :
    Grows t t' ∧ p.lhs.index < t'.names.length ∧ p.rhs ≠ [] ∧ Below t'.names.length p.rhs := by
  rw [resolveRule_eq] at h
  obtain ⟨lhs, t₁, hlhs, h⟩ := bind_eq_ok h
  obtain ⟨forms, t₂, hforms, h⟩ := bind_eq_ok h
  obtain ⟨hgrows₁, hlt⟩ := number_spec hlhs
  obtain ⟨hgrows₂, -, hbelow⟩ := mapM_eq_ok (fun _ _ _ _ ↦ resolveSymbol_spec)
    (fun _ _ _ _ hgrows hbelow ↦ hbelow.mono hgrows.names.length_le) hforms
  dsimp only at h
  split at h
  case isTrue =>
    obtain ⟨_, t₃, hthrow, -⟩ := bind_eq_ok h
    cases hthrow
  case isFalse hne =>
    obtain ⟨rfl, rfl⟩ := pure_eq_ok h
    refine ⟨hgrows₁.trans hgrows₂, hgrows₂.lt hlt, hne, fun a ha ↦ ?_⟩
    obtain ⟨form, hform, ha⟩ := List.mem_flatten.1 ha
    obtain ⟨_, -, hbelow⟩ := hbelow form hform
    exact hbelow a ha

/-- The phases of a building that succeeded, and the tables between them. -/
theorem exists_phases_of_build {b : Builder} {g : Grammar} (h : b.build = .ok g) :
    ∃ t₁ t₂ t₃, b.declared.forM (declare .emptyName) {} = .ok ((), t₁) ∧
      b.rules.forM (declare .emptyLhs ·.lhs) t₁ = .ok ((), t₂) ∧
      b.rules.mapM (resolveRule b.defined) t₂ = .ok (g.productions, t₃) ∧
      number (b.start.getD Grammar.defaultStart) t₃ = .ok (g.start, ⟨g.names⟩) := by
  rw [build] at h
  cases hresolve : b.resolve {} with
  | error e =>
    rw [hresolve] at h
    cases h
  | ok r =>
    obtain ⟨⟨productions, start⟩, t⟩ := r
    rw [hresolve] at h
    cases h
    obtain ⟨_, t₁, hdeclared, h⟩ := bind_eq_ok hresolve
    obtain ⟨_, t₂, hlhs, h⟩ := bind_eq_ok h
    obtain ⟨_, t₃, hrules, h⟩ := bind_eq_ok h
    obtain ⟨_, t₄, hstart, h⟩ := bind_eq_ok h
    obtain ⟨heq, rfl⟩ := pure_eq_ok h
    cases heq
    exact ⟨t₁, t₂, t₃, hdeclared, hlhs, hrules, hstart⟩

/-- A grammar that is built is well formed. -/
theorem build_wellFormed {b : Builder} {g : Grammar} (h : b.build = .ok g) : g.WellFormed := by
  obtain ⟨t₁, t₂, t₃, hdeclared, hlhs, hrules, hstart⟩ := exists_phases_of_build h
  have hgrows₁ := forM_eq_ok (fun _ _ _ _ ↦ declare_spec) hdeclared
  have hgrows₂ := forM_eq_ok (fun _ _ _ _ ↦ declare_spec) hlhs
  obtain ⟨hgrows₃, -, hresolved⟩ := mapM_eq_ok (fun _ _ _ _ ↦ resolveRule_spec)
    (fun _ p t t' hgrows hp ↦
      ⟨hgrows.lt hp.1, hp.2.1, hp.2.2.mono hgrows.names.length_le⟩) hrules
  obtain ⟨hgrows₄, hlt⟩ := number_spec hstart
  have hproductions : ∀ p ∈ g.productions,
      p.lhs.index < g.size ∧ p.rhs ≠ [] ∧ Below g.size p.rhs := by
    intro p hp
    obtain ⟨_, -, hlhs, hne, hbelow⟩ := hresolved p hp
    exact ⟨hgrows₄.lt hlhs, hne, hbelow.mono hgrows₄.names.length_le⟩
  constructor
  case names_nodup =>
    exact (((hgrows₁.trans hgrows₂).trans hgrows₃).trans hgrows₄).nodup List.nodup_nil
  case start_lt => exact hlt
  case lhs_lt => exact fun p hp ↦ (hproductions p hp).1
  case rhs_ne_nil => exact fun p hp ↦ (hproductions p hp).2.1
  case rhs_owned => exact fun p hp ↦ below_size_iff.1 (hproductions p hp).2.2

end Builder

/-! ## Ways to get a grammar -/

/-- The grammars that there are: what steps build, what a text says, and binary forms of these. -/
inductive Grammar.Obtainable : Grammar → Prop where
  | build {steps : List BuilderStep} {g : Grammar} :
      (Builder.ofSteps steps).build = .ok g → Obtainable g
  | read {text : String} {g : Grammar} : Notation.read text = .ok g → Obtainable g
  | binarize {g : Grammar} : Obtainable g → Obtainable g.binarize

/-- Every grammar that there is is well formed. -/
theorem Grammar.Obtainable.wellFormed {g : Grammar} (h : g.Obtainable) : g.WellFormed := by
  induction h with
  | build h => exact Builder.build_wellFormed h
  | @read text g h =>
    rw [Notation.read] at h
    cases hlines : Notation.linesOf text with
    | error e =>
      rw [hlines] at h
      cases h
    | ok ls =>
      rw [hlines] at h
      exact Builder.build_wellFormed h
  | binarize _ ih => exact wellFormed_binarize ih

end ContextFree
