import ContextFree.Proofs.Cyk.Trace
import ContextFree.Proofs.Guarded.Operations

/-!
# Bottom-up recognition, guarded

Filling a table and asking for its entries, with guarded operations.  Addresses are computed from
words, so they are right only if the table is not too large; but then there is none.  A span or a
non-terminal that a chart does not have is told by comparisons alone, before any address is
computed.
-/

namespace ContextFree.Cyk.Guarded

open ContextFree.Guarded

/-! ## Addresses -/

/-- The number of words that a cell for that many non-terminals owns. -/
def wordsFor (symbolCount : Nat) : Option Nat := do return (← add? symbolCount 63) / 64

/-- The number of a cell in a table of a given width. -/
def cell (width : Nat) (s : Span) : Option Nat := do add? (← mul? s.first width) s.last

/-- The word that holds the bit of a non-terminal, given the number of the cell. -/
def word (symbolCount cell : Nat) (a : NonTerm) : Option Nat := do
  add? (← mul? cell (Table.wordsFor symbolCount)) (a.index / 64)

/-- The bit of a non-terminal in its word.  It must not be shifted out. -/
def mask (a : NonTerm) : Option UInt64 :=
  if a.index % 64 < 64 then some (Table.mask a) else none

/-! ## Tables -/

/-- Asks for the memory of a table and clears it.  That the sizes can be multiplied is found out on
the way, so only the number of words of a cell is computed under a guard. -/
def allocate (memory : Memory) (width symbolCount : Nat) : Option (Except Fault Table) := do
  let cellWords ← wordsFor symbolCount
  return do
    let some cells := mul? width width | throw (.chartTooLarge width)
    let some words := mul? cells cellWords | throw (.chartTooLarge width)
    unless memory.grantsWords words do throw (.allocation cells)
    unless memory.grantsCells words cells do throw (.allocation cells)
    return ⟨width, symbolCount, .replicate words 0, .replicate cells .empty⟩

/-- Looks for the bit of a non-terminal in the cell of a span. -/
def bit (t : Table) (s : Span) (a : NonTerm) : Option Bool := do
  let bits ← t.bits[← word t.symbolCount (← cell t.width s) a]?
  return bits &&& (← mask a) != 0

/-- The non-terminal is in the cell of the span. -/
def contains (t : Table) (s : Span) (a : NonTerm) : Option Bool :=
  if s.Within t.width ∧ a.index < t.symbolCount then bit t s a else some false

/-- The non-terminals in the cell of a span. -/
def symbols (t : Table) (s : Span) : Option (List NonTerm) :=
  ((List.range t.symbolCount).map NonTerm.mk).filterM fun a ↦
    if s.Within t.width then contains t s a else some false

/-- The last reason that was given for an entry. -/
def backpointer (t : Table) (s : Span) (a : NonTerm) : Option (Option Backpointer) := do
  if s.Within t.width then return (← t.reasons[← cell t.width s]?).lookup a else return none

/-- Puts a non-terminal into the cell of a span, for a reason. -/
def record (t : Table) (s : Span) (a : NonTerm) (b : Backpointer) : Option Table := do
  let cell ← cell t.width s
  let mask ← mask a
  let bits ← modify? t.bits (← word t.symbolCount cell a) (· ||| mask)
  let reasons ← modify? t.reasons cell (·.insert a b)
  return ⟨t.width, t.symbolCount, bits, reasons⟩

/-! ## Addresses of a table -/

variable {width symbolCount : Nat} {s : Span} {a : NonTerm}

theorem mask_eq (a : NonTerm) : mask a = some (Table.mask a) := if_pos (Nat.mod_lt _ (by decide))

theorem wordsFor_eq (h : symbolCount + 63 < UInt64.size) :
    wordsFor symbolCount = some (Table.wordsFor symbolCount) := by
  rw [wordsFor, add?_eq_some h]
  rfl

theorem allocate_eq (h : symbolCount + 63 < UInt64.size) (memory : Memory) :
    allocate memory width symbolCount = some (Table.allocate memory width symbolCount) := by
  rw [allocate, wordsFor_eq h]
  rfl

section Addresses

variable (h : Table.Addressable width symbolCount)

include h

theorem cell_eq (hs : s.Within width) : cell width s = some (Table.cell width s) := by
  have hlt : s.first * width + s.last < UInt64.size := Nat.lt_trans (Table.cell_lt hs) h.cells_lt
  rw [cell, mul?_eq_some (Nat.lt_of_le_of_lt (Nat.le_add_right _ _) hlt)]
  exact add?_eq_some hlt

theorem word_eq (hs : s.Within width) (ha : a.index < symbolCount) :
    word symbolCount (Table.cell width s) a = some (Table.word width symbolCount s a) := by
  have hlt := Nat.lt_trans (Table.word_lt hs ha) h.words_lt
  rw [word, mul?_eq_some (Nat.lt_of_le_of_lt (Nat.le_add_right _ _) hlt)]
  exact add?_eq_some hlt

end Addresses

section Table

variable {t : Table} (h : Table.Addressable t.width t.symbolCount) (ht : t.Sized)

include h ht

theorem bit_eq (hs : s.Within t.width) (ha : a.index < t.symbolCount) :
    bit t s a = some (t.contains s a) := by
  have hlt : Table.word t.width t.symbolCount s a < t.bits.size := ht.bits ▸ Table.word_lt hs ha
  rw [bit, cell_eq h hs, Option.bind_eq_bind, Option.bind_some, word_eq h hs ha]
  simp [mask_eq, Table.contains, hs, ha, hlt]

/-- Whatever is asked for, the answer goes without a mistake. -/
theorem contains_eq (s : Span) (a : NonTerm) : contains t s a = some (t.contains s a) := by
  rw [contains]
  split
  case isTrue hin => exact bit_eq h ht hin.1 hin.2
  case isFalse hout =>
    rw [Table.contains, ← Bool.decide_and, decide_eq_false hout, Bool.false_and]

/-- Without the comparisons before it, the address of a span out of bounds might not be a word. -/
example : cell 3 ⟨UInt64.size - 2, UInt64.size - 1⟩ = none := by decide

theorem symbols_eq (s : Span) : symbols t s = some (t.symbols s) := by
  refine filterM_eq_some fun a _ ↦ ?_
  split
  case isTrue => exact contains_eq h ht s a
  case isFalse hout => simp [Table.contains, hout]

theorem backpointer_eq (s : Span) (a : NonTerm) :
    backpointer t s a = some (t.backpointer? s a) := by
  rw [backpointer, Table.backpointer?]
  split
  case isTrue hs =>
    have hlt : Table.cell t.width s < t.reasons.size := ht.reasons ▸ Table.cell_lt hs
    simp [cell_eq h hs, hlt]
  case isFalse => rfl

theorem record_eq (hs : s.Within t.width) (ha : a.index < t.symbolCount) (b : Backpointer) :
    record t s a b = some (t.record s a b) := by
  have hword : Table.word t.width t.symbolCount s a < t.bits.size := ht.bits ▸ Table.word_lt hs ha
  have hcell : Table.cell t.width s < t.reasons.size := ht.reasons ▸ Table.cell_lt hs
  simp [record, cell_eq h hs, word_eq h hs ha, mask_eq, modify?_eq_some hword,
    modify?_eq_some hcell, Table.record]

end Table

/-! ## Filling a table -/

/-- The productions of the two shapes, each looked up by its number. -/
def ruleTables (g : Grammar) : Option (List TerminalRule × List BinaryRule) := do
  let entries ← (g.nonterms.flatMap fun a ↦ (alternatives g a).map (a, ·)).mapM fun (a, p) ↦ do
    return (a, p, (← production g p).rhs)
  return (entries.filterMap fun (a, p, rhs) ↦ TerminalRule.of? a p rhs,
    entries.filterMap fun (a, p, rhs) ↦ BinaryRule.of? a p rhs)

/-- Records an entry, and reports it if it is new. -/
def enter (f : Filling) (s : Span) (a : NonTerm) (b : Backpointer) : Option Filling := do
  let known ← bit f.table s a
  return ⟨← record f.table s a b, if known then f.events else .cellFilled s a :: f.events⟩

/-- Fills the cell of one position of an input. -/
def fillPosition (rules : List TerminalRule) (w : List Char) (f : Filling) (i : Nat) :
    Option Filling := do
  let c ← w[i]?
  rules.foldlM (fun f r ↦
    if r.terminal = c then enter f ⟨i, i⟩ r.lhs (.terminal r.production) else some f) f

/-- Fills the cell of a span with what its parts at one split give. -/
def fillSplit (rules : List BinaryRule) (s : Span) (f : Filling) (split : Nat) :
    Option Filling := do
  let right : Span := ⟨← add? split 1, s.last⟩
  rules.foldlM (fun f r ↦ do
    if ← contains f.table ⟨s.first, split⟩ r.left <&&> contains f.table right r.right then
      enter f s r.lhs (.binary r.production split)
    else return f) f

/-- Fills the cell of a span of more than one position. -/
def fillSpan (rules : List BinaryRule) (f : Filling) (s : Span) : Option Filling :=
  -- counting from one end of a range to the other takes no difference of the two
  (List.range' s.first (s.last - s.first)).foldlM (fillSplit rules s) f

/-- Fills the cells of the spans of a given length of an input of length `n`. -/
def fillLength (rules : List BinaryRule) (n : Nat) (f : Filling) (length : Nat) :
    Option Filling := do
  let greatest ← sub? n length
  (List.range (greatest + 1)).foldlM (fun f first ↦ do
    fillSpan rules f ⟨first, ← sub? (← add? first length) 1⟩) f

/-- Fills a table for an input. -/
def fill (g : Grammar) (w : List Char) (table : Table) : Option Filling := do
  let (terminal, binary) ← ruleTables g
  let diagonal ← (List.range w.length).foldlM (fillPosition terminal w) ⟨table, []⟩
  (List.range' 2 (w.length - 1)).foldlM (fillLength binary w.length) diagonal

section Filling

variable {g : Grammar} {w : List Char} {f : Filling} {n m : Nat}

theorem ruleTables_eq (hg : g.WellFormed) :
    ruleTables g = some (terminalRules g, binaryRules g) := by
  have hentries : ∀ x ∈ g.nonterms.flatMap fun a ↦ (alternatives g a).map (a, ·),
      (do return (x.1, x.2, (← production g x.2).rhs) : Option _) =
        some (x.1, x.2, (g.production x.2).rhs) := by
    intro x hx
    obtain ⟨a, -, hx⟩ := List.mem_flatMap.1 hx
    obtain ⟨p, hp, rfl⟩ := List.mem_map.1 hx
    rw [alternatives_eq hg] at hp
    simp [production_eq_of_mem hp]
  rw [ruleTables, mapM_eq_some hentries]
  simp only [Option.bind_eq_bind, Option.bind_some, List.map_flatMap, List.map_map,
    List.filterMap_flatMap, List.filterMap_map, alternatives_eq hg]
  rfl

section Steps

variable (h : Table.Addressable n m) (hf : f.Fits n m)

include h hf

theorem contains_table_eq (s : Span) (a : NonTerm) :
    contains f.table s a = some (f.table.contains s a) := by
  obtain ⟨ht, rfl, rfl⟩ := hf
  exact contains_eq h ht s a

theorem enter_eq (hs : s.Within n) (ha : a.index < m) (b : Backpointer) :
    enter f s a b = some (f.record s a b) := by
  obtain ⟨ht, rfl, rfl⟩ := hf
  rw [enter, bit_eq h ht hs ha, record_eq h ht hs ha, Filling.record]
  cases f.table.contains s a <;> rfl

end Steps

/-- The guarded operation goes without a mistake, it does what the other one does, and the table
keeps its measures. -/
def Fills (n m : Nat) (x : Option Filling) (f : Filling) : Prop := x = some f ∧ f.Fits n m

theorem fills_foldlM {α : Type} {l : List α} {f? : Filling → α → Option Filling}
    {f' : Filling → α → Filling} (h : ∀ a ∈ l, ∀ f, f.Fits n m → Fills n m (f? f a) (f' f a))
    (hf : f.Fits n m) : Fills n m (l.foldlM f? f) (l.foldl f' f) :=
  foldlM_eq_some (Filling.Fits n m) h hf

/-- An attempt on a cell enters something, or it leaves the table as it is. -/
theorem fills_ite (h : Table.Addressable n m) (hf : f.Fits n m) (hs : s.Within n) (ha : a.index < m)
    (b : Backpointer) (c : Prop) [Decidable c] :
    Fills n m (if c then enter f s a b else some f) (if c then f.record s a b else f) := by
  split
  · exact ⟨enter_eq h hf hs ha b, hf.record s a b⟩
  · exact ⟨rfl, hf⟩

section Loops

variable (h : Table.Addressable w.length g.size) (hf : f.Fits w.length g.size)

include h hf

theorem fills_fillPosition {c : Char} {i : Nat} (hc : w[i]? = some c) :
    Fills w.length g.size (fillPosition (terminalRules g) w f i)
      (f.fillPosition (terminalRules g) (c, i)) := by
  have hi := (List.getElem?_eq_some_iff.1 hc).1
  rw [fillPosition, hc]
  exact fills_foldlM (fun r hr f hf ↦
    fills_ite h hf ⟨Nat.le_refl i, hi⟩ (mem_terminalRules.1 hr).1 _ _) hf

theorem fills_fillSplit (hs : s.Within w.length) {k : Nat} (hk : k + 1 < UInt64.size) :
    Fills w.length g.size (fillSplit (binaryRules g) s f k)
      (f.fillSplit (binaryRules g) s k) := by
  rw [fillSplit, add?_eq_some hk]
  refine fills_foldlM (fun r hr f hf ↦ ?_) hf
  have hboth : (contains f.table ⟨s.first, k⟩ r.left <&&>
      contains f.table ⟨k + 1, s.last⟩ r.right) = some (f.table.contains ⟨s.first, k⟩ r.left &&
        f.table.contains ⟨k + 1, s.last⟩ r.right) := by
    rw [contains_table_eq h hf, contains_table_eq h hf]
    cases f.table.contains ⟨s.first, k⟩ r.left <;> rfl
  rw [hboth]
  exact fills_ite h hf hs (mem_binaryRules.1 hr).1 _ _

theorem fills_fillSpan (hs : s.Within w.length) :
    Fills w.length g.size (fillSpan (binaryRules g) f s) (f.fillSpan (binaryRules g) s) := by
  refine fills_foldlM (fun k hk f hf ↦ ?_) hf
  obtain ⟨hfirst, hlt⟩ := List.mem_range'_1.1 hk
  have hlast : s.last < UInt64.size := Nat.lt_trans hs.2 h.width_lt
  exact fills_fillSplit h hf hs (by omega)

theorem fills_fillLength {length : Nat} (hpos : 0 < length) (hle : length ≤ w.length) :
    Fills w.length g.size (fillLength (binaryRules g) w.length f length)
      ((spansOfLength w.length length).foldl (Filling.fillSpan (binaryRules g)) f) := by
  have hcount : w.length - length + 1 = w.length + 1 - length := by omega
  rw [fillLength, sub?_eq_some hle, spansOfLength, List.foldl_map, ← hcount]
  refine fills_foldlM (fun first hfirst f hf ↦ ?_) hf
  have hlt := List.mem_range.1 hfirst
  have hw := h.width_lt
  have hs : (⟨first, first + length - 1⟩ : Span).Within w.length := by
    constructor <;> simp only <;> omega
  rw [add?_eq_some (by omega), Option.bind_eq_bind, Option.bind_some, sub?_eq_some (by omega)]
  exact fills_fillSpan h hf hs

omit hf

/-- Filling a table goes without a mistake. -/
theorem fills_fill (hg : g.WellFormed) :
    Fills w.length g.size (fill g w (.empty w.length g.size)) (Cyk.fill g w) := by
  have hempty : Filling.Fits w.length g.size ⟨.empty w.length g.size, []⟩ :=
    ⟨Table.sized_empty _ _, rfl, rfl⟩
  obtain ⟨hdiagonal, hfits⟩ := fills_foldlM (l := w.zipIdx) (fun x hx f hf ↦
    fills_fillPosition h hf (List.mem_zipIdx_iff_getElem?.1 hx)) hempty
  rw [← List.foldlM_map, ← range_length_eq] at hdiagonal
  simp only [fill, ruleTables_eq hg, Option.bind_eq_bind, Option.bind_some, hdiagonal]
  rw [Cyk.fill, longSpans, List.foldl_flatMap]
  refine fills_foldlM (fun length hlength f hf ↦ ?_) hfits
  obtain ⟨htwo, hlt⟩ := List.mem_range'_1.1 hlength
  exact fills_fillLength h hf (by omega) (by omega)

end Loops

end Filling

/-! ## Charts -/

/-- The start symbol covers the whole input, and there is some. -/
def accepts (c : Chart) : Option Bool :=
  match c.rootSpan? with
  | some s => contains c.table s c.grammar.start
  | none => some false

/-- How a non-terminal came to cover a span.  The two parts of a span were computed when the reason
was recorded; following a split that does not lie inside the span might not come to an end. -/
def trace (c : Chart) (s : Span) (a : NonTerm) : Option (List Step) := do
  match ← backpointer c.table s a with
  | none => return []
  | some (.terminal p) => return [⟨a, p⟩]
  | some (.binary p k) =>
    match (← production c.grammar p).rhs with
    | [.nonterm l, .nonterm r] =>
      if s.first ≤ k ∧ k < s.last then
        return ⟨a, p⟩ :: (← trace c ⟨s.first, k⟩ l) ++ (← trace c ⟨k + 1, s.last⟩ r)
      else none
    | _ => return [⟨a, p⟩]
termination_by s.length
decreasing_by all_goals simp only [Span.length]; omega

/-- Looks for the input bottom-up. -/
def recognize (g : Grammar) (w : List Char) (limits : Limits) (memory : Memory) :
    Option (Recognition Chart) :=
  match limits.exceededBy w.length with
  | some e => some (.finish (.exhausted e) none [])
  | none => do
    match ← allocate memory w.length g.size with
    | .error fault => return .finish (.fault fault) none []
    | .ok table =>
      let f ← fill g w table
      let c : Chart := ⟨g, w, f.table⟩
      return .finish (.ofBool (← accepts c)) (some c) f.events.reverse

section Chart

variable {c : Chart} (h : Table.Addressable c.table.width c.table.symbolCount) (ht : c.table.Sized)

include h ht

theorem accepts_eq : accepts c = some c.accepts := by
  rw [accepts, Chart.accepts]
  cases c.rootSpan? with
  | none => rfl
  | some s => exact contains_eq h ht s c.grammar.start

/-- Following the reasons goes without a mistake if they hold good: a reason then names a production
of the grammar, and a split inside the span. -/
theorem trace_eq (hc : c.table.Justified c.grammar c.input) (s : Span) (a : NonTerm) :
    trace c s a = some (c.trace s a) := by
  induction hn : s.length using Nat.strongRecOn generalizing s a with
  | ind n ih =>
    rw [trace, backpointer_eq h ht]
    cases hb : c.table.backpointer? s a with
    | none => rw [trace_of_eq_none hb]; rfl
    | some b =>
      cases hc.supports s a b hb with
      | terminal => rw [trace_of_terminal hb]; rfl
      | @binary _ k r hr hfirst hlast _ _ =>
        obtain ⟨-, hp, hrhs⟩ := mem_binaryRules.1 hr
        simp only [Span.length] at hn
        have hleft := ih _ (by simp only [Span.length]; omega) ⟨s.first, k⟩ r.left rfl
        have hright := ih _ (by simp only [Span.length]; omega) ⟨k + 1, s.last⟩ r.right rfl
        rw [trace_of_binary hb hrhs hfirst hlast]
        simp [production_eq_of_mem hp, hrhs, hfirst, hlast, hleft, hright]

end Chart

/-- Whatever a chart is asked for, the answer goes without a mistake. -/
structure Answers (c : Chart) : Prop where
  accepts_eq : accepts c = some c.accepts
  contains_eq : ∀ s a, contains c.table s a = some (c.contains s a)
  symbols_eq : ∀ s, symbols c.table s = some (c.symbols s)
  backpointer_eq : ∀ s a, backpointer c.table s a = some (c.backpointer? s a)
  trace_eq : ∀ s a, trace c s a = some (c.trace s a)
  /-- The number of each cell is a place of the array of reasons. -/
  cell_lt : ∀ s, s.Within c.length → Table.cell c.length s < c.table.reasons.size
  /-- The number of each word is a place of the array of bits. -/
  word_lt : ∀ s a, s.Within c.length → a.index < c.grammar.size →
    Table.word c.length c.grammar.size s a < c.table.bits.size

/-- A filled table that can be counted gives no wrong answer. -/
theorem answers_fill {g : Grammar} {w : List Char} (h : Table.Addressable w.length g.size)
    (hg : g.WellFormed) : Answers ⟨g, w, (Cyk.fill g w).table⟩ := by
  obtain ⟨-, ht, hwidth, hcount⟩ := fills_fill h hg
  have htable : Table.Addressable (Cyk.fill g w).table.width (Cyk.fill g w).table.symbolCount := by
    rw [hwidth, hcount]
    exact h
  exact {
    accepts_eq := Guarded.accepts_eq htable ht
    contains_eq := Guarded.contains_eq htable ht
    symbols_eq := Guarded.symbols_eq htable ht
    backpointer_eq := Guarded.backpointer_eq htable ht
    trace_eq := Guarded.trace_eq htable ht (justified_fill g w)
    cell_lt := fun s hs ↦ by
      rw [ht.reasons, hwidth]
      exact Table.cell_lt hs
    word_lt := fun s a hs ha ↦ by
      rw [ht.bits, hwidth, hcount]
      exact Table.word_lt hs ha }

/-- Bottom-up recognition goes without a mistake, and whatever the chart is asked for.  A table that
is too large to be counted is never filled. -/
theorem recognize_eq {g : Grammar} {w : List Char} (hg : g.WellFormed)
    (hsize : g.size + 63 < UInt64.size) (limits : Limits) (memory : Memory) :
    recognize g w limits memory = some (Cyk.recognize g w limits memory) ∧
      ∀ c, (Cyk.recognize g w limits memory).chart = some c → Answers c := by
  constructor
  · rw [recognize, Cyk.recognize]
    cases limits.exceededBy w.length with
    | some e => rfl
    | none =>
      simp only [allocate_eq hsize, Table.allocate_eq, Option.bind_eq_bind, Option.bind_some]
      by_cases hroom : Table.HasRoom memory w.length g.size
      · obtain ⟨hfill, -⟩ := fills_fill hroom.toAddressable hg
        have haccepts := (answers_fill hroom.toAddressable hg).accepts_eq
        simp only [if_pos hroom, hfill, Option.bind_some, haccepts]
        rfl
      · simp only [if_neg hroom]
        rfl
  · intro c hc
    obtain ⟨⟨-, hroom⟩, rfl⟩ := chart_eq_some_iff.1 hc
    exact answers_fill hroom.toAddressable hg

end ContextFree.Cyk.Guarded
