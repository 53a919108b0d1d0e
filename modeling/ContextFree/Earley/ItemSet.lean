import ContextFree.Earley.Item

/-!
# Item sets

The items of one position in the order in which they were found, each once.  Two further lists of
them are indexes: one by origin, which answers whether an item is there, and one by the
non-terminal after the dot, which answers who waits for it.
-/

namespace ContextFree.Earley

/-- The items of one position. -/
structure ItemSet where
  items : Array Item
  /-- The items of each origin, the latest first. -/
  byOrigin : Array (List Item)
  /-- The items with the dot before a non-terminal, each with it, the latest first. -/
  waiting : List (NonTerm × Item)
deriving Repr

namespace ItemSet

/-- The set of a position before anything is found; the origins of its items lie at or before the
position. -/
def empty (position : Nat) : ItemSet := ⟨#[], .replicate (position + 1) [], []⟩

instance : Inhabited ItemSet := ⟨⟨#[], #[], []⟩⟩

/-- The number of items. -/
def size (s : ItemSet) : Nat := s.items.size

/-- The item is in the set. -/
def contains (s : ItemSet) (item : Item) : Bool :=
  (s.byOrigin.getD item.origin []).contains item

/-- The items with the dot before a non-terminal, in order. -/
def waitingFor (a : NonTerm) (s : ItemSet) : List Item :=
  ((s.waiting.filter (·.1 = a)).map (·.2)).reverse

/-- Puts an item at the end. -/
def insert (g : Grammar) : ItemSet → Item → ItemSet
  | ⟨items, byOrigin, waiting⟩, item =>
    ⟨items.push item, byOrigin.modify item.origin (item :: ·),
      match item.awaited? g with
      | some a => (a, item) :: waiting
      | none => waiting⟩

/-- The items of the set, a line for each. -/
def text (g : Grammar) (s : ItemSet) : String :=
  String.join (s.items.toList.map fun item ↦ "    " ++ item.text g ++ "\n")

/-! ## The indexes -/

@[simp] theorem items_insert (g : Grammar) (s : ItemSet) (item : Item) :
    (s.insert g item).items = s.items.push item := rfl

@[simp] theorem size_insert (g : Grammar) (s : ItemSet) (item : Item) :
    (s.insert g item).size = s.size + 1 := by simp [size]

@[simp] theorem contains_empty (position : Nat) (item : Item) :
    (empty position).contains item = false := by
  simp only [contains, empty, Array.getD_eq_getD_getElem?, Array.getElem?_replicate]
  split <;> rfl

/-- An item whose origin has a place in the set is there once it is put in, and no other item comes
with it. -/
theorem contains_insert {g : Grammar} {s : ItemSet} {item : Item}
    (h : item.origin < s.byOrigin.size) (item' : Item) :
    (s.insert g item).contains item' = (decide (item' = item) || s.contains item') := by
  obtain ⟨items, byOrigin, waiting⟩ := s
  simp only [contains, insert, Array.getD_eq_getD_getElem?, Array.getElem?_modify]
  by_cases heq : item.origin = item'.origin
  · have h' : item'.origin < byOrigin.size := heq ▸ h
    simp [heq, Array.getElem?_eq_getElem h']
  · have hne : item' ≠ item := fun h' ↦ heq (h' ▸ rfl)
    simp [heq, hne]

@[simp] theorem waitingFor_empty (position : Nat) (a : NonTerm) :
    (empty position).waitingFor a = [] := rfl

/-- An item that waits for a non-terminal comes after those that waited for it before. -/
theorem waitingFor_insert (g : Grammar) (s : ItemSet) (item : Item) (a : NonTerm) :
    (s.insert g item).waitingFor a =
      s.waitingFor a ++ if item.awaited? g = some a then [item] else [] := by
  obtain ⟨items, byOrigin, waiting⟩ := s
  cases h : item.awaited? g with
  | none => simp [waitingFor, insert, h]
  | some b => by_cases hb : b = a <;> simp [waitingFor, insert, h, hb]

end ItemSet

end ContextFree.Earley
