import ContextFree.Proofs.Grammar.Resolved
import ContextFree.Proofs.Notation.Printed

/-!
# What is read can be printed

A text is read line by line, each free of newlines and then trimmed.  So the names that it gives are
fields, a word of a right-hand side is made of the characters of words, a left-hand side is one
that the lines of the notation can have, and no terminal is a newline.  All this stays with the
names and the symbols of the grammar that is built (`printable_of_read`).
-/

namespace ContextFree.Notation

open ContextFree.Text

variable {s : List Char}

/-! ## Tokens of a text -/

/-- A token holds characters of the text, and its word is one. -/
def Token.IsFrom (s : List Char) : Token → Prop
  | .quoted l => l ⊆ s
  | .bar => True
  | .word w => IsWord w

theorem Token.IsFrom.mono {s' : List Char} (h : s ⊆ s') {t : Token} (ht : t.IsFrom s) :
    t.IsFrom s' := by
  cases t with
  | quoted l => exact List.Subset.trans ht h
  | bar => trivial
  | word w => exact ht

theorem subset_of_splitAt? {q : Char} {l r : List Char} (h : splitAt? q s = some (l, r)) :
    l ⊆ s ∧ r ⊆ s := by
  obtain ⟨rfl, -⟩ := splitAt?_eq_some_iff.1 h
  simp

theorem isFrom_of_mem_tokens? {ts : List Token} (h : tokens? s = some ts) :
    ∀ t ∈ ts, t.IsFrom s := by
  fun_induction tokens? s generalizing ts with
  | case1 => simp_all
  | case2 c s hblank ih => exact fun t ht ↦ (ih h t ht).mono (List.subset_cons_self _ _)
  | case3 s hblank ih =>
    obtain ⟨ts', hts, rfl⟩ := Option.map_eq_some_iff.1 h
    refine List.forall_mem_cons.2 ⟨trivial, fun t ht ↦ ?_⟩
    exact (ih hts t ht).mono (List.subset_cons_self _ _)
  | case4 => cases h
  | case5 c s hblank hbar hquote l r hsplit ih =>
    obtain ⟨ts', hts, rfl⟩ := Option.map_eq_some_iff.1 h
    obtain ⟨hl, hr⟩ := subset_of_splitAt? hsplit
    refine List.forall_mem_cons.2 ⟨List.subset_cons_of_subset c hl, fun t ht ↦ ?_⟩
    exact (ih hts t ht).mono (List.subset_cons_of_subset c hr)
  | case6 c s hblank hbar hquote ih =>
    obtain ⟨ts', hts, rfl⟩ := Option.map_eq_some_iff.1 h
    refine List.forall_mem_cons.2 ⟨⟨List.cons_ne_nil _ _, ?_⟩, fun t ht ↦ ?_⟩
    · refine List.forall_mem_cons.2 ⟨by simp_all [isWordChar], fun d hd ↦ ?_⟩
      exact List.all_eq_true.1 List.all_takeWhile d hd
    · refine (ih hts t ht).mono (List.subset_cons_of_subset c ?_)
      exact (List.dropWhile_suffix _).subset

/-- The symbols of the alternatives are symbols of the tokens. -/
theorem exists_mem_of_mem_alternatives {ts : List Token} {a : List RawSymbol}
    (ha : a ∈ Token.alternatives ts) {x : RawSymbol} (hx : x ∈ a) : ∃ t ∈ ts, x ∈ t.symbols := by
  have hmem : x ∈ (Token.alternatives ts).flatten := List.mem_flatten.2 ⟨a, ha, hx⟩
  rw [flatten_alternatives] at hmem
  exact List.mem_flatMap.1 hmem

/-! ## Lines of a text -/

/-- A raw symbol that a line can give: no newline, and no name but as a word. -/
def IsReadable : RawSymbol → Prop
  | .term c => c ≠ '\n'
  | .nonterm _ => False
  | .word w => IsWord w.toList

/-- What a line can say. -/
def Line.Readable : Line → Prop
  | .empty => True
  | .start name => IsField name.toList
  | .declare names => ∀ name ∈ names, IsField name.toList
  | .rule lhs as => IsLhs lhs.toList ∧ ∀ a ∈ as, ∀ x ∈ a, IsReadable x

theorem isReadable_of_mem_alternatives? {as : List (List RawSymbol)} (hs : '\n' ∉ s)
    (h : alternatives? s = some as) : ∀ a ∈ as, ∀ x ∈ a, IsReadable x := by
  obtain ⟨ts, hts, rfl⟩ := Option.map_eq_some_iff.1 h
  intro a ha x hx
  obtain ⟨t, ht, hx⟩ := exists_mem_of_mem_alternatives ha hx
  have hfrom := isFrom_of_mem_tokens? hts t ht
  cases t with
  | bar => cases hx
  | quoted l =>
    obtain ⟨c, hc, rfl⟩ := List.mem_map.1 hx
    exact fun heq ↦ hs (heq ▸ hfrom hc)
  | word w =>
    obtain rfl := List.mem_singleton.1 hx
    rw [IsReadable, String.toList_ofList]
    exact hfrom

theorem readable_of_ruleOfTrimmed {number : Nat} {line : Line} (hs : '\n' ∉ s)
    (hcomment : s.head? ≠ some '#') (h : Line.ruleOfTrimmed number s = .ok line) :
    line.Readable := by
  obtain ⟨lhs, rhs, as, hsplit, has, -, rfl⟩ := ruleOfTrimmed_eq_ok_iff.1 h
  obtain ⟨hfield, hfree, ⟨rest, rfl⟩, hsub⟩ := splitRule?_eq_some hsplit
  have hhead : lhs.head? ≠ some '#' := by
    obtain ⟨c, lhs, rfl⟩ := List.exists_cons_of_ne_nil hfield.ne_nil
    exact hcomment
  refine ⟨?_, isReadable_of_mem_alternatives? (fun hmem ↦ hs (hsub hmem)) has⟩
  rw [String.toList_ofList]
  exact ⟨hfield, hhead, hfree⟩

theorem readable_of_read {l : List Char} {number : Nat} {line : Line} (hl : '\n' ∉ l)
    (h : Line.read number l = .ok line) : line.Readable := by
  rw [Line.read, Line.ofTrimmed] at h
  have hfields : ∀ name ∈ (fields (trim l)).map String.ofList, IsField name.toList := by
    intro name hname
    obtain ⟨f, hf, rfl⟩ := List.mem_map.1 hname
    rw [String.toList_ofList]
    exact (isField_and_subset_of_mem_fields hf).1
  split at h
  case isTrue =>
    cases h
    trivial
  case isFalse hblank =>
    split at h
    case h_1 name heq =>
      cases h
      exact hfields name (heq ▸ .tail _ (.head _))
    case h_2 name names heq =>
      cases h
      exact fun n hn ↦ hfields n (heq ▸ .tail _ hn)
    case h_3 =>
      exact readable_of_ruleOfTrimmed (fun hmem ↦ hl (trim_subset l hmem))
        (fun heq ↦ hblank (.inr heq)) h

theorem readable_of_readLines {ls : List (List Char)} {number : Nat} {out : List Line}
    (hls : ∀ l ∈ ls, '\n' ∉ l) (h : readLines number ls = .ok out) :
    ∀ line ∈ out, line.Readable := by
  induction ls generalizing number out with
  | nil =>
    cases h
    nofun
  | cons l ls ih =>
    obtain ⟨line, rest, hline, hrest, rfl⟩ := readLines_cons_eq_ok_iff.1 h
    refine List.forall_mem_cons.2 ⟨readable_of_read (hls l (.head _)) hline, ?_⟩
    exact ih (fun l hl ↦ hls l (.tail _ hl)) hrest

/-! ## Grammars of a text -/

/-- A step that a line can stand for. -/
def ReadableStep : BuilderStep → Prop
  | .start name => IsField name.toList
  | .nonterm name => IsField name.toList
  | .rule _ _ => False
  | .production lhs rhs => IsLhs lhs.toList ∧ ∀ x ∈ rhs, IsReadable x

theorem Line.Readable.readableStep {line : Line} (h : line.Readable) :
    ∀ s ∈ line.steps, ReadableStep s := by
  cases line with
  | empty => nofun
  | start name => exact List.forall_mem_singleton.2 h
  | declare names =>
    intro s hs
    obtain ⟨name, hname, rfl⟩ := List.mem_map.1 hs
    exact h name hname
  | rule lhs as =>
    intro s hs
    obtain ⟨a, ha, rfl⟩ := List.mem_map.1 hs
    exact ⟨h.1, h.2 a ha⟩

theorem readableStep_of_linesOf {text : String} {out : List Line} (h : linesOf text = .ok out) :
    ∀ s ∈ out.flatMap Line.steps, ReadableStep s := by
  intro s hs
  obtain ⟨line, hline, hs⟩ := List.mem_flatMap.1 hs
  have hreadable := readable_of_readLines (fun _ ↦ newline_notMem_of_mem_lines) h
  exact (hreadable line hline).readableStep s hs

/-- A grammar that was read comes from steps that lines can stand for. -/
theorem exists_steps_of_read {text : String} {g : Grammar} (h : read text = .ok g) :
    ∃ steps, (∀ s ∈ steps, ReadableStep s) ∧ (Builder.ofSteps steps).build = .ok g := by
  rw [read] at h
  cases hlines : linesOf text with
  | error e =>
    rw [hlines] at h
    cases h
  | ok out =>
    rw [hlines] at h
    exact ⟨out.flatMap Line.steps, readableStep_of_linesOf hlines, h⟩

/-- What a builder can be given by a text. -/
structure ReadableBuilder (b : Builder) : Prop where
  declared : ∀ name ∈ b.declared, IsField name.toList
  rules : ∀ r ∈ b.rules, IsLhs r.lhs.toList ∧ ∀ x ∈ r.rhs.raw, IsReadable x
  start : IsField (b.start.getD Grammar.defaultStart).toList

theorem readableBuilder_ofSteps {steps : List BuilderStep} (h : ∀ s ∈ steps, ReadableStep s) :
    ReadableBuilder (Builder.ofSteps steps) := by
  constructor
  case declared =>
    intro name hname
    rw [Builder.declared_ofSteps] at hname
    obtain ⟨s, hs, heq⟩ := List.mem_filterMap.1 hname
    have hstep := h s hs
    cases s <;> cases heq
    exact hstep
  case rules =>
    intro r hr
    rw [Builder.rules_ofSteps] at hr
    obtain ⟨s, hs, heq⟩ := List.mem_filterMap.1 hr
    have hstep := h s hs
    cases s <;> cases heq
    · cases hstep
    · exact hstep
  case start =>
    rw [Builder.start_ofSteps]
    cases hlast : (steps.filterMap (·.startName?)).getLast? with
    | none => decide
    | some name =>
      obtain ⟨s, hs, heq⟩ := List.mem_filterMap.1 (List.mem_of_getLast? hlast)
      have hstep := h s hs
      cases s <;> cases heq
      exact hstep

theorem printable_of_build {b : Builder} (hb : ReadableBuilder b) {g : Grammar}
    (h : b.build = .ok g) : Printable g := by
  obtain ⟨-, hresolves⟩ := Builder.resolves_of_build h
  constructor
  case isField =>
    refine Builder.forall_mem_names_of_build h hb.declared (fun r hr ↦ (hb.rules r hr).1.isField)
      (fun r hr s hs name hname ↦ ?_) hb.start
    have hreadable := (hb.rules r hr).2 s hs
    rcases hname with rfl | rfl
    · exact hreadable.isField
    · cases hreadable
  case isWord =>
    intro p hp a ha
    obtain ⟨r, hr, hpr⟩ := hresolves p hp
    obtain ⟨s, hs, name, hname, hword⟩ := hpr.rhs _ ha
    have hreadable := (hb.rules r hr).2 s hs
    rw [Grammar.name_of_getElem? hname]
    rcases hword with rfl | rfl
    · exact ⟨hreadable.notMem rfl, hreadable.notMem rfl, hreadable.notMem rfl⟩
    · cases hreadable
  case isLhs =>
    intro p hp
    obtain ⟨r, hr, hpr⟩ := hresolves p hp
    obtain ⟨⟨-, hhead, hfree⟩, -⟩ := hb.rules r hr
    rw [Grammar.name_of_getElem? hpr.lhs]
    exact ⟨hhead, hfree⟩
  case newline_notMem =>
    intro p hp hmem
    obtain ⟨r, hr, hpr⟩ := hresolves p hp
    obtain ⟨s, hs, rfl | ⟨w, rfl, hw⟩⟩ := hpr.rhs _ hmem
    · exact (hb.rules r hr).2 _ hs rfl
    · have hword : IsWord w.toList := (hb.rules r hr).2 _ hs
      exact hword.notMem (by decide) hw

/-- A grammar that was read can be printed line by line. -/
theorem printable_of_read {text : String} {g : Grammar} (h : read text = .ok g) :
    Printable g := by
  obtain ⟨steps, hsteps, hbuild⟩ := exists_steps_of_read h
  exact printable_of_build (readableBuilder_ofSteps hsteps) hbuild

end ContextFree.Notation
