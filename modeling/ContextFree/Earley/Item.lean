import ContextFree.Grammar.Text

/-!
# Items

An item is a production with a dot in its right-hand side and the position at which it began.  In
the set of position `i`, the item `A → α • β` of origin `j` says that `α` derives the input from
`j` up to `i`, and that `β` is looked for next.
-/

namespace ContextFree.Earley

/-- A production, how many of its symbols stand before the dot, and where it began. -/
structure Item where
  production : ProdId
  dot : Nat
  origin : Nat
deriving DecidableEq, Repr

namespace Item

/-- The item of a production of which nothing has been read. -/
def seed (p : ProdId) (origin : Nat) : Item := ⟨p, 0, origin⟩

/-- The item with the dot moved over one symbol. -/
def advance (i : Item) : Item := { i with dot := i.dot + 1 }

/-- The left-hand side of the item's production. -/
def lhs (g : Grammar) (i : Item) : NonTerm := (g.production i.production).lhs

/-- The symbol after the dot, if there is one. -/
def next? (g : Grammar) (i : Item) : Option Symbol := (g.production i.production).rhs[i.dot]?

/-- The non-terminal after the dot, if that is what stands there. -/
def awaited? (g : Grammar) (i : Item) : Option NonTerm := (i.next? g).bind Symbol.nonterm?

/-- All symbols stand before the dot. -/
def IsComplete (g : Grammar) (i : Item) : Prop := (g.production i.production).rhs.length ≤ i.dot

instance (g : Grammar) (i : Item) : Decidable (i.IsComplete g) :=
  inferInstanceAs (Decidable (_ ≤ _))

/-- An item is complete just if no symbol follows its dot. -/
theorem next?_eq_none_iff {g : Grammar} {i : Item} : i.next? g = none ↔ i.IsComplete g := by
  simp [next?, IsComplete]

theorem awaited?_eq_some_iff {g : Grammar} {i : Item} {a : NonTerm} :
    i.awaited? g = some a ↔ i.next? g = some (.nonterm a) := by
  rw [awaited?]
  cases i.next? g with
  | none => simp
  | some s => cases s <;> simp

/-- An item, as in `A -> B . c, origin: 0`. -/
def text (g : Grammar) (i : Item) : String :=
  let p := g.production i.production
  g.name p.lhs ++ " ->" ++ g.spaced (p.rhs.take i.dot) ++ " ." ++ g.spaced (p.rhs.drop i.dot)
    ++ ", origin: " ++ toString i.origin

end Item

end ContextFree.Earley
