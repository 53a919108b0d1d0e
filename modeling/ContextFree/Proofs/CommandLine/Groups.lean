import ContextFree.CommandLine.Options
import Mathlib.Data.List.Induction
import Mathlib.Data.Nat.Digits.Defs

/-!
# Command lines as rows of groups

The arguments of a command line are read in groups: a flag with its value, a flag by itself, or an
input.  A command line can be read just if it is a row of complete groups, of which at most one is
an input; there is one such row, and the last value of each flag counts.  Otherwise the error is
that of the first group that cannot be completed (`ofArguments_exact`).

Reading takes one step for each group (`read_arguments`), so it goes through a row group by group,
and stops where it gets stuck.
-/

namespace ContextFree

/-! ## Unsigned numbers -/

namespace Text

/-- The number that decimal digits stand for. -/
def decimal (ds : List Char) : Nat :=
  Nat.ofDigits 10 (ds.reverse.map fun d ↦ d.toNat - '0'.toNat)

/-- At least one decimal digit, behind a plus sign or not, and a value that fits into 64 bits. -/
def IsUnsigned (s : List Char) : Prop :=
  ∃ ds, (s = ds ∨ s = '+' :: ds) ∧ ds ≠ [] ∧ (∀ d ∈ ds, d.isDigit = true) ∧ decimal ds < 2 ^ 64

theorem digits?_eq_some_iff {s : List Char} {n : Nat} :
    digits? s = some n ↔ s ≠ [] ∧ (∀ d ∈ s, d.isDigit = true) ∧ decimal s = n := by
  have hvalue : s.foldl (fun n c ↦ 10 * n + (c.toNat - '0'.toNat)) 0 = decimal s := by
    rw [decimal, Nat.ofDigits_eq_foldr, List.foldr_map, List.foldr_reverse]
    simp [add_comm]
  rw [digits?, Option.ite_none_right_eq_some, hvalue, List.all_eq_true, and_assoc,
    Option.some.injEq]

theorem signedDigits?_eq_some_iff {s : List Char} {n : Nat} :
    signedDigits? s = some n ↔ ∃ ds, (s = ds ∨ s = '+' :: ds) ∧ digits? ds = some n := by
  constructor
  · intro h
    fun_cases signedDigits? s
    case case1 ds => exact ⟨ds, .inr rfl, h⟩
    case case2 hsign => exact ⟨s, .inl rfl, by rwa [signedDigits?.eq_2 s hsign] at h⟩
  · rintro ⟨ds, rfl | rfl, h⟩
    · fun_cases signedDigits? s
      case case1 ds =>
        obtain ⟨-, hdigits, -⟩ := digits?_eq_some_iff.1 h
        exact absurd (hdigits '+' (.head _)) (by decide)
      case case2 => exact h
    · exact h

/-- What is read as an unsigned number. -/
theorem isSome_unsigned?_iff {s : List Char} : (unsigned? s).isSome = true ↔ IsUnsigned s := by
  simp only [unsigned?, Option.isSome_iff_exists, Option.filter_eq_some_iff,
    signedDigits?_eq_some_iff, digits?_eq_some_iff, decide_eq_true_eq, IsUnsigned]
  constructor
  · rintro ⟨n, ⟨ds, hs, hne, hdigits, rfl⟩, hlt⟩
    exact ⟨ds, hs, hne, hdigits, hlt⟩
  · rintro ⟨ds, hs, hne, hdigits, hlt⟩
    exact ⟨_, ⟨ds, hs, hne, hdigits, rfl⟩, hlt⟩

end Text

namespace CommandLine

/-! ## Groups -/

/-- The flag as it is written. -/
def ValueFlag.text : ValueFlag → String
  | .maxLength => "--max-length"
  | .maxStates => "--max-states"
  | .grammar => "--grammar"

/-- A text that the flag takes for its value.  A grammar can be any text, also one that looks like a
flag. -/
def ValueFlag.Accepts (value : String) : ValueFlag → Prop
  | .maxLength | .maxStates => Text.IsUnsigned value.toList
  | .grammar => True

/-- An argument that can only be an input. -/
def IsWord (arg : String) : Prop := arg ≠ "-v" ∧ ¬['-', '-'] <+: arg.toList

/-- An argument that looks like a flag but is none. -/
def IsUnknownFlag (arg : String) : Prop :=
  ['-', '-'] <+: arg.toList ∧ (∀ flag : ValueFlag, arg ≠ flag.text) ∧ arg ≠ "--verbose"

/-- Arguments that belong together. -/
inductive Group where
  | withValue (flag : ValueFlag) (value : String)
  | verbose (short : Bool)
  | input (word : String)
deriving DecidableEq, Repr

namespace Group

/-- The arguments of the group. -/
def arguments : Group → List String
  | .withValue flag value => [flag.text, value]
  | .verbose short => [if short then "-v" else "--verbose"]
  | .input word => [word]

/-- The flag of the group, if it is not an input. -/
def flag? : Group → Option String
  | .withValue flag _ => some flag.text
  | .verbose short => some (if short then "-v" else "--verbose")
  | .input _ => none

/-- The value that the group gives to a flag. -/
def value? (flag : ValueFlag) : Group → Option String
  | .withValue flag' value => if flag' = flag then some value else none
  | _ => none

/-- The input that the group gives. -/
def input? : Group → Option String
  | .input word => some word
  | _ => none

/-- The flag takes the value, and the input is one. -/
def Complete : Group → Prop
  | .withValue flag value => flag.Accepts value
  | .verbose _ => True
  | .input word => IsWord word

end Group

/-- The arguments of groups put together. -/
def argumentsOf (gs : List Group) : List String := gs.flatMap Group.arguments

/-- A row of complete groups, of which at most one is an input. -/
structure IsRow (gs : List Group) : Prop where
  complete : ∀ g ∈ gs, g.Complete
  input_le : (gs.filterMap Group.input?).length ≤ 1

/-- What comes behind a row begins with a group that cannot be completed, for the given reason. -/
inductive Stuck (gs : List Group) : List String → UsageError → Prop where
  | missingValue (flag : ValueFlag) : Stuck gs [flag.text] (.missingValue flag.text)
  | notANumber {flag : ValueFlag} {value : String} (hvalue : ¬flag.Accepts value)
      (rest : List String) :
      Stuck gs (flag.text :: value :: rest) (.notANumber flag.text value)
  | unknownFlag {arg : String} (harg : IsUnknownFlag arg) (rest : List String) :
      Stuck gs (arg :: rest) (.unknownFlag arg)
  | extraInput {word word' : String} (hword : IsWord word) (hinput : .input word' ∈ gs)
      (rest : List String) : Stuck gs (word :: rest) .extraInput

/-- The last value that is given for a flag. -/
def lastValue? (flag : ValueFlag) (gs : List Group) : Option String :=
  (gs.filterMap (Group.value? flag)).getLast?

/-- The last number that is given for a flag. -/
def lastNumber? (flag : ValueFlag) (gs : List Group) : Option Nat :=
  (lastValue? flag gs).bind (Text.unsigned? ·.toList)

/-- What a row of groups asks for.  What is not given is as it is without any arguments. -/
def optionsOf (gs : List Group) : Options where
  input := (gs.filterMap Group.input?).getLast?
  grammar := (lastValue? .grammar gs).getD Grammar.exampleText
  limits.maxLength := (lastNumber? .maxLength gs).getD 1000
  limits.maxStates := (lastNumber? .maxStates gs).getD 10000
  verbose := gs.any (· matches .verbose _)

/-- The rows have the same groups of each flag in the same order, and the same inputs: only groups of
different flags have changed places. -/
def SameByFlag (gs gs' : List Group) : Prop :=
  ∀ flag?, gs.filter (·.flag? = flag?) = gs'.filter (·.flag? = flag?)

/-! ## One argument -/

theorem ofString_text (flag : ValueFlag) : Argument.ofString flag.text = .withValue flag := by
  cases flag <;> rfl

theorem ofString_verbose (short : Bool) :
    Argument.ofString (if short then "-v" else "--verbose") = .verbose := by
  cases short <;> rfl

theorem text_dashes (flag : ValueFlag) : ['-', '-'] <+: flag.text.toList := by
  cases flag <;> decide

/-- An argument is a flag with a value, a flag by itself, an unknown flag or a word. -/
theorem ofString_cases (arg : String) :
    (∃ flag : ValueFlag, arg = flag.text) ∨
      (∃ short : Bool, arg = if short then "-v" else "--verbose") ∨ IsUnknownFlag arg ∨
        IsWord arg := by
  by_cases hflag : ∃ flag : ValueFlag, arg = flag.text
  · exact .inl hflag
  by_cases hshort : arg = "-v"
  · exact .inr (.inl ⟨true, hshort⟩)
  by_cases hlong : arg = "--verbose"
  · exact .inr (.inl ⟨false, hlong⟩)
  by_cases hdashes : ['-', '-'] <+: arg.toList
  · exact .inr (.inr (.inl ⟨hdashes, not_exists.1 hflag, hlong⟩))
  · exact .inr (.inr (.inr ⟨hshort, hdashes⟩))

/-- An argument that is no flag is told by how it begins. -/
theorem ofString_of_ne {arg : String} (hflag : ∀ flag : ValueFlag, arg ≠ flag.text)
    (hlong : arg ≠ "--verbose") (hshort : arg ≠ "-v") :
    Argument.ofString arg = if ['-', '-'] <+: arg.toList then .unknown else .input := by
  have hlength : arg ≠ "--max-length" := hflag .maxLength
  have hstates : arg ≠ "--max-states" := hflag .maxStates
  have hgrammar : arg ≠ "--grammar" := hflag .grammar
  rw [Argument.ofString, if_neg hlength, if_neg hstates, if_neg hgrammar,
    if_neg (not_or.2 ⟨hlong, hshort⟩)]
  simp only [List.isPrefixOf_iff_prefix]

theorem ofString_of_isUnknownFlag {arg : String} (h : IsUnknownFlag arg) :
    Argument.ofString arg = .unknown := by
  obtain ⟨hdashes, hflag, hlong⟩ := h
  have hshort : arg ≠ "-v" := by
    rintro rfl
    exact absurd hdashes (by decide)
  rw [ofString_of_ne hflag hlong hshort, if_pos hdashes]

theorem ofString_of_isWord {arg : String} (h : IsWord arg) : Argument.ofString arg = .input := by
  obtain ⟨hshort, hdashes⟩ := h
  have hflag : ∀ flag : ValueFlag, arg ≠ flag.text := by
    rintro flag rfl
    exact hdashes (text_dashes flag)
  have hlong : arg ≠ "--verbose" := by
    rintro rfl
    exact hdashes (by decide)
  rw [ofString_of_ne hflag hlong hshort, if_neg hdashes]

/-! ## One group -/

/-- The options after a group. -/
def Options.take (o : Options) : Group → Options
  | .withValue .maxLength value =>
    { o with limits.maxLength := (Text.unsigned? value.toList).getD 0 }
  | .withValue .maxStates value =>
    { o with limits.maxStates := (Text.unsigned? value.toList).getD 0 }
  | .withValue .grammar value => { o with grammar := value }
  | .verbose _ => { o with verbose := true }
  | .input word => { o with input := some word }

variable {o : Options} {flag : ValueFlag} {value : String} {gs gs' : List Group} {g : Group}
  {rest : List String} {e : UsageError}

theorem numberFor_eq_ok (name : String) (h : Text.IsUnsigned value.toList) :
    numberFor name value = .ok ((Text.unsigned? value.toList).getD 0) := by
  obtain ⟨n, hn⟩ := Option.isSome_iff_exists.1 (Text.isSome_unsigned?_iff.2 h)
  rw [numberFor, hn]
  rfl

theorem numberFor_eq_error (name : String) (h : ¬Text.IsUnsigned value.toList) :
    numberFor name value = .error (.notANumber name value) := by
  have hnone : Text.unsigned? value.toList = none := by
    rwa [← Text.isSome_unsigned?_iff, Bool.not_eq_true, Option.isSome_eq_false_iff,
      Option.isNone_iff_eq_none] at h
  rw [numberFor, hnone]

theorem setValue_eq_ok (o : Options) (name : String) (h : flag.Accepts value) :
    o.setValue name value flag = .ok (o.take (.withValue flag value)) := by
  cases flag with
  | maxLength | maxStates =>
    rw [Options.setValue, numberFor_eq_ok name h]
    rfl
  | grammar => rfl

theorem setValue_eq_error (o : Options) (name : String) (h : ¬flag.Accepts value) :
    o.setValue name value flag = .error (.notANumber name value) := by
  cases flag with
  | maxLength | maxStates =>
    rw [Options.setValue, numberFor_eq_error name h]
    rfl
  | grammar => exact absurd trivial h

/-- A complete group is read in one step, unless it is a second input. -/
theorem read_arguments (hg : g.Complete) (hinput : ∀ word, g = .input word → o.input = none)
    (rest : List String) : o.read (g.arguments ++ rest) = (o.take g).read rest := by
  cases g with
  | withValue flag value =>
    rw [Group.arguments, List.cons_append, List.cons_append, List.nil_append, Options.read,
      ofString_text]
    simp only [setValue_eq_ok o _ hg]
    rfl
  | verbose short =>
    rw [Group.arguments, List.cons_append, List.nil_append, Options.read, ofString_verbose]
    rfl
  | input word =>
    have hnone : ¬o.input.isSome = true := by simp [hinput word rfl]
    rw [Group.arguments, List.cons_append, List.nil_append, Options.read, ofString_of_isWord hg]
    simp only [if_neg hnone]
    rfl

/-- The first group that cannot be completed is the error. -/
theorem read_of_stuck (hinput : ∀ word, .input word ∈ gs → o.input.isSome = true)
    (h : Stuck gs rest e) : o.read rest = .error e := by
  cases h with
  | missingValue flag => rw [Options.read, ofString_text]
  | @notANumber flag value hvalue rest =>
    rw [Options.read, ofString_text]
    simp only [setValue_eq_error o _ hvalue]
    rfl
  | unknownFlag harg rest => rw [Options.read, ofString_of_isUnknownFlag harg]
  | extraInput hword hmem rest =>
    rw [Options.read, ofString_of_isWord hword]
    exact if_pos (hinput _ hmem)

/-! ## Rows of groups -/

theorem argumentsOf_concat (gs : List Group) (g : Group) :
    argumentsOf (gs ++ [g]) = argumentsOf gs ++ g.arguments := by
  rw [argumentsOf, argumentsOf, List.flatMap_append, List.flatMap_singleton]

theorem IsRow.of_append (h : IsRow (gs ++ gs')) : IsRow gs where
  complete g hg := h.complete g (List.mem_append_left _ hg)
  input_le := by
    have hle := h.input_le
    rw [List.filterMap_append, List.length_append] at hle
    omega

/-- An input comes behind groups without one. -/
theorem IsRow.input_eq_none {word : String} (h : IsRow (gs ++ [.input word])) :
    (optionsOf gs).input = none := by
  have hle := h.input_le
  have hone : ([Group.input word].filterMap Group.input?).length = 1 := rfl
  rw [List.filterMap_append, List.length_append, hone] at hle
  have hnil : gs.filterMap Group.input? = [] := List.length_eq_zero_iff.1 (by omega)
  rw [optionsOf, hnil]
  rfl

theorem isSome_input {word : String} (h : .input word ∈ gs) :
    (optionsOf gs).input.isSome = true := by
  have hmem : word ∈ gs.filterMap Group.input? := List.mem_filterMap.2 ⟨_, h, rfl⟩
  exact List.getLast?_isSome.2 (List.ne_nil_of_mem hmem)

/-- Of several groups of one flag the last one counts. -/
theorem optionsOf_concat (gs : List Group) (hg : g.Complete) :
    optionsOf (gs ++ [g]) = (optionsOf gs).take g := by
  cases g with
  | withValue flag value =>
    cases flag with
    | maxLength | maxStates =>
      obtain ⟨n, hn⟩ := Option.isSome_iff_exists.1 (Text.isSome_unsigned?_iff.2 hg)
      simp [optionsOf, Options.take, lastNumber?, lastValue?, Group.value?, Group.input?, hn]
    | grammar => simp [optionsOf, Options.take, lastNumber?, lastValue?, Group.value?, Group.input?]
  | verbose short | input word =>
    simp [optionsOf, Options.take, lastNumber?, lastValue?, Group.value?, Group.input?]

/-- A row is read group by group. -/
theorem read_argumentsOf (h : IsRow gs) (rest : List String) :
    Options.read {} (argumentsOf gs ++ rest) = (optionsOf gs).read rest := by
  induction gs using List.reverseRecOn generalizing rest with
  | nil => rfl
  | append_singleton gs g ih =>
    have hg := h.complete g (List.mem_append_right _ (.head _))
    rw [argumentsOf_concat, List.append_assoc, ih h.of_append, optionsOf_concat gs hg,
      read_arguments hg fun word hword ↦ (hword ▸ h).input_eq_none]

/-- The groups that can be completed come first, and then nothing, or a group that cannot. -/
def Divides (before : List Group) (args : List String) : Prop :=
  ∃ gs rest, IsRow (before ++ gs) ∧ args = argumentsOf gs ++ rest ∧
    (rest = [] ∨ ∃ e, Stuck (before ++ gs) rest e)

variable {before : List Group} {args : List String}

theorem Divides.of_stuck (hbefore : IsRow before) (h : Stuck before args e) :
    Divides before args :=
  ⟨[], args, by simpa using hbefore, rfl, .inr ⟨e, by simpa using h⟩⟩

theorem Divides.arguments_append (h : Divides (before ++ [g]) args) :
    Divides before (g.arguments ++ args) := by
  obtain ⟨gs, rest, hrow, rfl, hrest⟩ := h
  rw [List.append_assoc, List.singleton_append] at hrow hrest
  exact ⟨g :: gs, rest, hrow, by simp [argumentsOf], hrest⟩

theorem IsRow.concat (h : IsRow before) (hg : g.Complete)
    (hinput : ∀ word, g = .input word → ∀ word', .input word' ∉ before) :
    IsRow (before ++ [g]) where
  complete := List.forall_mem_append.2 ⟨h.complete, List.forall_mem_singleton.2 hg⟩
  input_le := by
    rw [List.filterMap_append, List.length_append]
    cases g with
    | withValue | verbose => exact h.input_le
    | input word =>
      have hnil : before.filterMap Group.input? = [] := by
        rw [List.filterMap_eq_nil_iff]
        intro g hg
        cases g with
        | withValue | verbose => rfl
        | input word' => exact absurd hg (hinput word rfl word')
      rw [hnil]
      exact Nat.le_refl 1

/-- Every command line begins with the groups that can be completed. -/
theorem divides (hbefore : IsRow before) (args : List String) : Divides before args := by
  induction hn : args.length using Nat.strongRecOn generalizing before args with
  | ind n ih =>
    -- one more group, and then what is left
    have hgroup : ∀ g args', IsRow (before ++ [g]) → args = g.arguments ++ args' →
        Divides before args := by
      rintro g args' hrow rfl
      have hlength : args'.length < n := by
        rw [← hn, List.length_append]
        cases g <;> simp [Group.arguments]
      exact (ih _ hlength hrow args' rfl).arguments_append
    cases args with
    | nil => exact ⟨[], [], by simpa using hbefore, rfl, .inl rfl⟩
    | cons arg args =>
      rcases ofString_cases arg with ⟨flag, rfl⟩ | ⟨short, rfl⟩ | hunknown | hword
      · cases args with
        | nil => exact .of_stuck hbefore (.missingValue flag)
        | cons value args =>
          by_cases hvalue : flag.Accepts value
          · exact hgroup (.withValue flag value) args (hbefore.concat hvalue nofun) rfl
          · exact .of_stuck hbefore (.notANumber hvalue args)
      · exact hgroup (.verbose short) args (hbefore.concat trivial nofun) rfl
      · exact .of_stuck hbefore (.unknownFlag hunknown args)
      · by_cases hinput : ∃ word, .input word ∈ before
        · obtain ⟨word, hmem⟩ := hinput
          exact .of_stuck hbefore (.extraInput hword hmem args)
        · exact hgroup (.input arg) args
            (hbefore.concat hword fun _ _ ↦ not_exists.1 hinput) rfl

/-! ## One row -/

/-- The first group of a command line. -/
def firstGroup? : List String → Option (Group × List String)
  | [] => none
  | arg :: args =>
    match Argument.ofString arg with
    | .withValue flag =>
      match args with
      | [] => none
      | value :: args => some (.withValue flag value, args)
    | .verbose => some (.verbose (arg = "-v"), args)
    | .unknown => none
    | .input => some (.input arg, args)

theorem firstGroup?_arguments (hg : g.Complete) (rest : List String) :
    firstGroup? (g.arguments ++ rest) = some (g, rest) := by
  cases g with
  | withValue flag value =>
    rw [Group.arguments, List.cons_append, List.cons_append, List.nil_append, firstGroup?,
      ofString_text]
  | verbose short =>
    rw [Group.arguments, List.cons_append, List.nil_append, firstGroup?, ofString_verbose]
    cases short <;> simp
  | input word =>
    rw [Group.arguments, List.cons_append, List.nil_append, firstGroup?, ofString_of_isWord hg]

/-- There is one way to put a command line together of complete groups. -/
theorem argumentsOf_injective (h : ∀ g ∈ gs, g.Complete) (h' : ∀ g ∈ gs', g.Complete)
    (heq : argumentsOf gs = argumentsOf gs') : gs = gs' := by
  have hne : ∀ g gs, argumentsOf (g :: gs) ≠ [] := by
    intro g gs
    cases g <;> simp [argumentsOf, Group.arguments]
  induction gs generalizing gs' with
  | nil =>
    cases gs' with
    | nil => rfl
    | cons g' gs' => exact absurd heq.symm (hne g' gs')
  | cons g gs ih =>
    cases gs' with
    | nil => exact absurd heq (hne g gs)
    | cons g' gs' =>
      obtain ⟨hg, hgs⟩ := List.forall_mem_cons.1 h
      obtain ⟨hg', hgs'⟩ := List.forall_mem_cons.1 h'
      have hfirst := firstGroup?_arguments hg (argumentsOf gs)
      rw [argumentsOf, argumentsOf, List.flatMap_cons, List.flatMap_cons] at heq
      rw [argumentsOf, heq, firstGroup?_arguments hg', Option.some.injEq, Prod.mk.injEq] at hfirst
      rw [hfirst.1, ih hgs hgs' hfirst.2.symm]

/-! ## Groups of different flags -/

namespace SameByFlag

/-- What the groups of one flag tell is the same. -/
theorem filterMap_eq {β : Type} {f : Group → Option β} (h : SameByFlag gs gs')
    (flag? : Option String) (hf : ∀ g b, f g = some b → g.flag? = flag?) :
    gs.filterMap f = gs'.filterMap f := by
  have hfilter : ∀ gs : List Group,
      gs.filterMap f = (gs.filter (·.flag? = flag?)).filterMap f := by
    intro gs
    rw [List.filterMap_filter]
    congr 1
    funext g
    cases hg : f g with
    | none => simp
    | some b => simp [hf g b hg]
  rw [hfilter, hfilter gs', h]

theorem mem_iff (h : SameByFlag gs gs') : g ∈ gs ↔ g ∈ gs' := by
  have hmem : ∀ gs : List Group, g ∈ gs ↔ g ∈ gs.filter (·.flag? = g.flag?) := by simp
  rw [hmem, hmem gs', h]

theorem filterMap_input?_eq (h : SameByFlag gs gs') :
    gs.filterMap Group.input? = gs'.filterMap Group.input? := by
  refine h.filterMap_eq none fun g word hg ↦ ?_
  cases g with
  | withValue | verbose => cases hg
  | input => rfl

theorem lastValue?_eq (h : SameByFlag gs gs') (flag : ValueFlag) :
    lastValue? flag gs = lastValue? flag gs' := by
  rw [lastValue?, lastValue?, h.filterMap_eq (some flag.text)]
  intro g value hg
  cases g with
  | withValue flag' value' =>
    obtain ⟨rfl, -⟩ := Option.ite_none_right_eq_some.1 hg
    rfl
  | verbose | input => cases hg

theorem optionsOf_eq (h : SameByFlag gs gs') : optionsOf gs = optionsOf gs' := by
  have hverbose : gs.any (· matches .verbose _) = gs'.any (· matches .verbose _) := by
    rw [Bool.eq_iff_iff, List.any_eq_true, List.any_eq_true]
    exact exists_congr fun g ↦ and_congr_left fun _ ↦ h.mem_iff
  simp only [optionsOf, lastNumber?, h.filterMap_input?_eq, h.lastValue?_eq, hverbose]

theorem isRow (h : SameByFlag gs gs') (hrow : IsRow gs) : IsRow gs' where
  complete g hg := hrow.complete g (h.mem_iff.2 hg)
  input_le := h.filterMap_input?_eq ▸ hrow.input_le

end SameByFlag

/-! ## Command lines -/

theorem ofArguments_argumentsOf (h : IsRow gs) :
    Options.ofArguments (argumentsOf gs) = .ok (optionsOf gs) := by
  have hread := read_argumentsOf h []
  rw [List.append_nil] at hread
  rw [Options.ofArguments, hread, Options.read]

theorem ofArguments_append_of_stuck (h : IsRow gs) (hrest : Stuck gs rest e) :
    Options.ofArguments (argumentsOf gs ++ rest) = .error e := by
  rw [Options.ofArguments, read_argumentsOf h]
  exact read_of_stuck (fun _ ↦ isSome_input) hrest

/-- What a command line comes to.  It can be read just if it is a row of complete groups, with one
input at most, and gives the options of the row, and the default input if there is none.  Otherwise,
and only then, it is a row of complete groups up to a group that cannot be completed, which is the
error.  There is one way to divide it into complete groups, and it makes no difference how groups of
different flags are ordered. -/
theorem ofArguments_exact :
    (∀ args o, Options.ofArguments args = .ok o ↔
      ∃ gs, IsRow gs ∧ args = argumentsOf gs ∧ o = optionsOf gs ∧
        o.word = ((gs.filterMap Group.input?).getLast?.getD defaultInput).toList) ∧
      (∀ args e, Options.ofArguments args = .error e ↔
        ∃ gs rest, IsRow gs ∧ args = argumentsOf gs ++ rest ∧ Stuck gs rest e) ∧
      (∀ gs gs', IsRow gs → IsRow gs' → argumentsOf gs = argumentsOf gs' → gs = gs') ∧
      ∀ gs gs', IsRow gs → SameByFlag gs gs' →
        IsRow gs' ∧ Options.ofArguments (argumentsOf gs') = .ok (optionsOf gs) := by
  have hempty : IsRow [] := ⟨List.forall_mem_nil _, Nat.zero_le 1⟩
  have hdivides : ∀ args, ∃ gs rest, IsRow gs ∧ args = argumentsOf gs ++ rest ∧
      (rest = [] ∨ ∃ e, Stuck gs rest e) := divides hempty
  refine ⟨fun args o ↦ ⟨fun h ↦ ?_, ?_⟩, fun args e ↦ ⟨fun h ↦ ?_, ?_⟩,
    fun gs gs' hrow hrow' ↦ argumentsOf_injective hrow.complete hrow'.complete,
    fun gs gs' hrow hsame ↦ ⟨hsame.isRow hrow, ?_⟩⟩
  · obtain ⟨gs, rest, hrow, rfl, rfl | ⟨e, hstuck⟩⟩ := hdivides args
    · rw [List.append_nil, ofArguments_argumentsOf hrow] at h
      cases h
      exact ⟨gs, hrow, List.append_nil _, rfl, rfl⟩
    · rw [ofArguments_append_of_stuck hrow hstuck] at h
      cases h
  · rintro ⟨gs, hrow, rfl, rfl, -⟩
    exact ofArguments_argumentsOf hrow
  · obtain ⟨gs, rest, hrow, rfl, rfl | ⟨e', hstuck⟩⟩ := hdivides args
    · rw [List.append_nil, ofArguments_argumentsOf hrow] at h
      cases h
    · rw [ofArguments_append_of_stuck hrow hstuck] at h
      cases h
      exact ⟨gs, rest, hrow, rfl, hstuck⟩
  · rintro ⟨gs, rest, hrow, rfl, hstuck⟩
    exact ofArguments_append_of_stuck hrow hstuck
  · rw [ofArguments_argumentsOf (hsame.isRow hrow), hsame.optionsOf_eq]

/-- The value of `--grammar` looks like a flag, the limit is given twice, and the groups come in two
orders; with one more input, or a number that is none, the command line cannot be read. -/
theorem ofArguments_exact_values_like_flags :
    let gs : List Group := [.withValue .maxStates "7", .withValue .grammar "--verbose",
      .input "ab", .withValue .maxStates "+05"]
    let gs' : List Group := [.input "ab", .withValue .maxStates "7",
      .withValue .maxStates "+05", .withValue .grammar "--verbose"]
    let o : Options :=
      { input := some "ab", grammar := "--verbose", limits := ⟨1000, 5⟩, verbose := false }
    IsRow gs ∧ SameByFlag gs gs' ∧
      Options.ofArguments
        ["--max-states", "7", "--grammar", "--verbose", "ab", "--max-states", "+05"] = .ok o ∧
      Options.ofArguments
        ["ab", "--max-states", "7", "--max-states", "+05", "--grammar", "--verbose"] = .ok o ∧
      Options.ofArguments (argumentsOf gs ++ ["c", "--max-length"]) = .error .extraInput := by
  intro gs gs' o
  have hseven : Text.IsUnsigned "7".toList := Text.isSome_unsigned?_iff.1 (by decide)
  have hfive : Text.IsUnsigned "+05".toList := Text.isSome_unsigned?_iff.1 (by decide)
  have hrow : IsRow gs := by
    refine ⟨?_, by decide⟩
    simp only [gs, List.forall_mem_cons]
    exact ⟨hseven, trivial, ⟨by decide, by decide⟩, hfive, List.forall_mem_nil _⟩
  have hsame : SameByFlag gs gs' := by
    intro flag?
    by_cases hstates : some "--max-states" = flag?
    · subst hstates
      decide
    by_cases hgrammar : some "--grammar" = flag?
    · subst hgrammar
      decide
    · have hnumber : ∀ value, (Group.withValue .maxStates value).flag? ≠ flag? := fun _ ↦ hstates
      have htext : ∀ value, (Group.withValue .grammar value).flag? ≠ flag? := fun _ ↦ hgrammar
      simp [gs, gs', List.filter_cons, hnumber, htext]
  have hoptions : optionsOf gs = o := by decide
  obtain ⟨hok, herror, -, hreorder⟩ := ofArguments_exact
  have hstuck : Stuck gs ["c", "--max-length"] .extraInput :=
    .extraInput ⟨by decide, by decide⟩ (.tail _ (.tail _ (.head _))) _
  obtain ⟨-, hother⟩ := hreorder gs gs' hrow hsame
  rw [hoptions] at hother
  exact ⟨hrow, hsame, (hok _ o).2 ⟨gs, hrow, rfl, hoptions.symm, by decide⟩, hother,
    (herror _ _).2 ⟨gs, _, hrow, rfl, hstuck⟩⟩

end CommandLine

end ContextFree
