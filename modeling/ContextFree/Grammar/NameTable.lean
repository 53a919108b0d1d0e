import ContextFree.Grammar.Basic

/-!
# Numbering names by first appearance

A table lists distinct names.  Asking it for a name gives the name's place, and puts the name at
the end if it was not there: so the places of the old names never change.
-/

namespace ContextFree

/-- Names in the order in which they were first asked for. -/
structure NameTable where
  names : List String := []
deriving DecidableEq, Repr

namespace NameTable

/-- The place of a name, and the table in which it has one. -/
def intern (name : String) (t : NameTable) : NonTerm × NameTable :=
  match t.names.idxOf? name with
  | some i => (⟨i⟩, t)
  | none => (⟨t.names.length⟩, ⟨t.names ++ [name]⟩)

theorem intern_of_idxOf? {name : String} {t : NameTable} {i : Nat}
    (h : t.names.idxOf? name = some i) : t.intern name = (⟨i⟩, t) := by simp [intern, h]

theorem intern_of_notMem {name : String} {t : NameTable} (h : name ∉ t.names) :
    t.intern name = (⟨t.names.length⟩, ⟨t.names ++ [name]⟩) := by
  simp [intern, List.idxOf?_eq_none_iff.2 h]

end NameTable

end ContextFree
