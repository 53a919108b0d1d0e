import ContextFree.Proofs.Grammar.Spelling

/-!
# What a grammar was built from

Each production of a grammar that was built comes from a rule: it has the name on the left, and
each symbol on the right comes from a raw symbol.  No rule is lost (`Builder.resolves_of_build`),
and no name is made up (`Builder.forall_mem_names_of_build`).
-/

namespace ContextFree

theorem Grammar.name_of_getElem? {g : Grammar} {a : NonTerm} {name : String}
    (h : g.names[a.index]? = some name) : g.name a = name := by
  simp [Grammar.name, h]

theorem Grammar.getElem?_names {g : Grammar} {a : NonTerm} (h : a.index < g.size) :
    g.names[a.index]? = some (g.name a) := by
  rw [name_of_lt h]
  exact List.getElem?_eq_getElem h

namespace Builder

/-! ## Where symbols come from -/

/-- A symbol comes from a raw symbol, where names are numbered by a table. -/
def ComesFrom (t : NameTable) (s : RawSymbol) : Symbol → Prop
  | .term c => s = .term c ∨ ∃ w, s = .word w ∧ c ∈ w.toList
  | .nonterm a => ∃ name, t.names[a.index]? = some name ∧ (s = .word name ∨ s = .nonterm name)

/-- A production comes from a rule. -/
structure Resolves (t : NameTable) (r : Rule) (p : Production) : Prop where
  lhs : t.names[p.lhs.index]? = some r.lhs
  rhs : ∀ x ∈ p.rhs, ∃ s ∈ r.rhs.raw, ComesFrom t s x

variable {defined : List String} {s : RawSymbol}

theorem eq_of_inl_mem_spellSymbol {c : Char} (h : .inl c ∈ spellSymbol defined s) :
    s = .term c ∨ ∃ w, s = .word w ∧ c ∈ w.toList := by
  cases s with
  | term d => simpa [spellSymbol, eq_comm] using h
  | nonterm name => simp [spellSymbol] at h
  | word w =>
    rw [spellSymbol] at h
    split at h
    · simp at h
    · exact .inr ⟨w, rfl, by simpa using h⟩

theorem eq_of_inr_mem_spellSymbol {name : String} (h : .inr name ∈ spellSymbol defined s) :
    s = .word name ∨ s = .nonterm name := by
  cases s with
  | term c => simp [spellSymbol] at h
  | nonterm other => simpa [spellSymbol, eq_comm] using h
  | word w =>
    rw [spellSymbol] at h
    split at h
    · simpa [eq_comm] using h
    · simp at h

variable {b : Builder} {g : Grammar}

/-- A production that reads as a rule comes from it. -/
theorem resolves_of_spell_eq (hg : g.WellFormed) {p : Production} (hp : p ∈ g.productions)
    {r : Rule} (h : p.spell g.name = spellRule defined r) : Resolves ⟨g.names⟩ r p := by
  obtain ⟨hlhs, hrhs⟩ := Prod.mk.inj h
  refine ⟨hlhs ▸ Grammar.getElem?_names (hg.lhs_lt p hp), fun x hx ↦ ?_⟩
  have hspell : x.spell g.name ∈ r.rhs.raw.flatMap (spellSymbol defined) :=
    hrhs ▸ List.mem_map_of_mem hx
  obtain ⟨s, hs, hx'⟩ := List.mem_flatMap.1 hspell
  refine ⟨s, hs, ?_⟩
  cases x with
  | term c => exact eq_of_inl_mem_spellSymbol hx'
  | nonterm a =>
    exact ⟨_, Grammar.getElem?_names (hg.rhs_owned p hp _ hx a rfl), eq_of_inr_mem_spellSymbol hx'⟩

/-- Every rule has become a production, and every production comes from a rule. -/
theorem resolves_of_build (h : b.build = .ok g) :
    g.productions.length = b.rules.length ∧
      ∀ p ∈ g.productions, ∃ r ∈ b.rules, Resolves ⟨g.names⟩ r p := by
  have hspells := (spells_of_build h).productions
  refine ⟨by simpa using congrArg List.length hspells, fun p hp ↦ ?_⟩
  have hmem : p.spell g.name ∈ b.rules.map (spellRule b.defined) :=
    hspells ▸ List.mem_map_of_mem hp
  obtain ⟨r, hr, heq⟩ := List.mem_map.1 hmem
  exact ⟨r, hr, resolves_of_spell_eq (build_wellFormed h) hp heq.symm⟩

/-! ## Where names come from -/

/-- The names of a grammar are those that the builder was given. -/
theorem forall_mem_names_of_build {P : String → Prop} (h : b.build = .ok g)
    (hdeclared : ∀ name ∈ b.declared, P name) (hlhs : ∀ r ∈ b.rules, P r.lhs)
    (hrhs : ∀ r ∈ b.rules, ∀ s ∈ r.rhs.raw, ∀ name, s = .word name ∨ s = .nonterm name → P name)
    (hstart : P (b.start.getD Grammar.defaultStart)) : ∀ name ∈ g.names, P name := by
  intro name hname
  rw [(spells_of_build h).names, List.mem_eraseDups, mem_askedNames] at hname
  rcases hname with hname | ⟨r, hr, rfl⟩ | ⟨r, hr, hname⟩ | rfl
  · exact hdeclared name hname
  · exact hlhs r hr
  · obtain ⟨s, hs, hname⟩ := List.mem_flatMap.1 hname
    exact hrhs r hr s hs name (eq_of_inr_mem_spellSymbol hname)
  · exact hstart

end Builder

end ContextFree
