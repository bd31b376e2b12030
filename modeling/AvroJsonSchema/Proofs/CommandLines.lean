import AvroJsonSchema.CommandLine.Run
import AvroJsonSchema.Proofs.Texts

/-!
# Command lines

An argument that is an option with its value behind an equals sign sets the value, whatever the value
holds, and leaves the arguments that follow as they are.

* **`CommandLine.Grammar.Sets`**: what an argument sets.
* **`CommandLine.Grammar.readFrom_of_sets`**: one such argument is read.
  **`CommandLine.Grammar.readFrom_append`**: some of them are read one after the other.
* **`CommandLine.parseArguments_one`**, **`CommandLine.parseArguments_all`**: the command lines of the
  conversions.
-/

namespace AvroJsonSchema

namespace CommandLine

/-- A name and a value with an equals sign between them. -/
def assigned (name value : Text) : Text :=
  name ++ equalsSign :: value

/-- A name of an option that is written out. -/
structure IsLong (name : Text) : Prop where
  dashes : name.take 2 = [dash, dash]
  no_equals : equalsSign ∉ name

instance (name : Text) : Decidable (IsLong name) :=
  decidable_of_iff (name.take 2 = [dash, dash] ∧ equalsSign ∉ name)
    ⟨fun ⟨a, b⟩ => ⟨a, b⟩, fun ⟨a, b⟩ => ⟨a, b⟩⟩

theorem IsLong.eq_cons {name : Text} (h : IsLong name) : ∃ rest, name = dash :: dash :: rest := by
  rcases name with _ | ⟨c, _ | ⟨d, rest⟩⟩
  · exact absurd h.dashes (by decide)
  · cases h.dashes
  · have hdashes : [c, d] = [dash, dash] := h.dashes
    cases hdashes
    exact ⟨rest, rfl⟩

section Classify

variable {names : List Text} {name value argument : Text}

theorem assignment?_assigned (h : equalsSign ∉ name) (value : Text) :
    assignment? (assigned name value) = some (name, value) := by
  have hne : ∀ c ∈ name, (decide (c ≠ equalsSign)) = true := fun c hc =>
    decide_eq_true fun heq => h (heq ▸ hc)
  have hdrop : (assigned name value).dropWhile (· ≠ equalsSign) = equalsSign :: value := by
    rw [assigned, List.dropWhile_append_of_pos hne]
    rfl
  have htake : (assigned name value).takeWhile (· ≠ equalsSign) = name := by
    rw [assigned, List.takeWhile_append_of_pos hne]
    exact List.append_nil _
  rw [assignment?, hdrop, htake]

theorem equals_mem_assigned (name value : Text) : equalsSign ∈ assigned name value :=
  List.mem_append_right _ List.mem_cons_self

/-- A name of an option is no option with a value. -/
theorem not_contains_assigned (hlong : ∀ n ∈ names, equalsSign ∉ n) (name value : Text) :
    names.contains (assigned name value) = false := by
  rw [List.contains_eq_mem, decide_eq_false_iff_not]
  exact fun h => hlong _ h (equals_mem_assigned _ _)

/-- An option with a value, where it is known. -/
theorem classifyOne_assigned (hlong : ∀ n ∈ names, equalsSign ∉ n) (hname : IsLong name)
    (hmem : name ∈ names) (value : Text) :
    classifyOne names (assigned name value) = some (.option name (some value)) := by
  have hassignment := assignment?_assigned hname.no_equals value
  have hno := not_contains_assigned hlong name value
  obtain ⟨rest, rfl⟩ := hname.eq_cons
  have hyes : names.contains (dash :: dash :: rest) = true := by
    rw [List.contains_eq_mem, decide_eq_true hmem]
  rw [assigned, List.cons_append, List.cons_append] at *
  rw [classifyOne]
  simp only [ne_eq, not_true_eq_false, if_false, hno, Bool.false_eq_true, hassignment,
    Option.filter_some, hyes, if_true]

/-- An option with a value, where no option begins like it, is not taken for several options. -/
theorem isSome_classifyOne_assigned (hlong : ∀ n ∈ names, equalsSign ∉ n) (hname : IsLong name)
    (hnone : ∀ n ∈ names, Text.after? name n = none) (value : Text) :
    (classifyOne names (assigned name value)).isSome := by
  have hassignment := assignment?_assigned hname.no_equals value
  have hno := not_contains_assigned hlong name value
  have hmatches : longMatches names (assigned name value) = [] := by
    have hfilter : names.filter (fun n => (Text.after? name n).isSome) = [] :=
      List.filter_eq_nil_iff.2 fun n hn => by simp [hnone n hn]
    rw [longMatches, hassignment]
    dsimp only
    rw [hfilter]
    rfl
  have hnot : names.contains name = false := by
    rw [List.contains_eq_mem, decide_eq_false_iff_not]
    intro hmem
    have hself := Text.after?_append name []
    rw [List.append_nil, hnone name hmem] at hself
    cases hself
  obtain ⟨rest, rfl⟩ := hname.eq_cons
  rw [assigned, List.cons_append, List.cons_append] at *
  rw [classifyOne]
  simp only [ne_eq, not_true_eq_false, if_false, hno, Bool.false_eq_true, hassignment,
    Option.filter_some, hnot, if_true, hmatches]
  split <;> rfl

theorem assigned_ne_separator (name value : Text) : assigned name value ≠ separator := by
  intro h
  have hmem := equals_mem_assigned name value
  rw [h] at hmem
  exact absurd hmem (by decide)

theorem classify_cons (h : argument ≠ separator) {piece : Piece}
    (hpiece : classifyOne names argument = some piece) (rest : List Text) :
    classify names (argument :: rest) = (classify names rest).map ((argument, piece) :: ·) := by
  rw [classify, if_neg h, hpiece]
  cases classify names rest <;> rfl

/-- The arguments are what has been classified. -/
theorem map_fst_of_classify {arguments : List Text} {pieces : List (Text × Piece)}
    (h : classify names arguments = some pieces) : pieces.map Prod.fst = arguments := by
  induction arguments generalizing pieces with
  | nil =>
    cases h
    rfl
  | cons argument rest ih =>
    rw [classify] at h
    split at h
    · cases h
      rw [List.map_cons, List.map_map]
      exact congrArg _ (List.map_id' rest)
    · obtain ⟨piece, -, h⟩ := Option.bind_eq_some_iff.1 h
      obtain ⟨pieces', hrest, h⟩ := Option.bind_eq_some_iff.1 h
      cases h
      rw [List.map_cons, ih hrest]

/-- Arguments are classified if each of them is, up to two dashes. -/
theorem isSome_classify_append {front : List Text}
    (h : ∀ argument ∈ front, argument ≠ separator ∧ (classifyOne names argument).isSome)
    {rest : List Text} (hrest : (classify names rest).isSome) :
    (classify names (front ++ rest)).isSome := by
  induction front with
  | nil => exact hrest
  | cons argument front ih =>
    obtain ⟨hne, hone⟩ := h argument List.mem_cons_self
    obtain ⟨piece, hpiece⟩ := Option.isSome_iff_exists.1 hone
    rw [List.cons_append, classify_cons hne hpiece, Option.isSome_map]
    exact ih fun other hother => h other (List.mem_cons_of_mem _ hother)

theorem isSome_classify_separator (names : List Text) (rest : List Text) :
    (classify names (separator :: rest)).isSome := by
  rw [classify, if_pos rfl]
  rfl

end Classify

namespace Grammar

variable {σ : Type} {grammar : Grammar σ} {complete : Bool} {values : σ}

/-- Reads arguments from the front on. -/
def readFrom (grammar : Grammar σ) (complete : Bool) (values : σ) (arguments : List Text) :
    Parsed σ :=
  match classify grammar.names arguments with
  | none => .refused
  | some pieces => grammar.read .free complete values pieces

/-- An argument sets some values and leaves the arguments that follow as they are. -/
def Sets (grammar : Grammar σ) (argument : Text) (set : σ → σ) : Prop :=
  argument ≠ separator ∧ ∃ piece, classifyOne grammar.names argument = some piece ∧
    ∀ complete values rest, grammar.read .free complete values ((argument, piece) :: rest) =
      grammar.read .free complete (set values) rest

theorem sets_flag {name : Text} {set : σ → σ} (hname : name ≠ separator)
    (hpiece : classifyOne grammar.names name = some (.option name none))
    (heffect : grammar.effect? name = some (.flag set)) : grammar.Sets name set := by
  refine ⟨hname, _, hpiece, fun complete values rest => ?_⟩
  rw [read, heffect]
  rfl

/-- A long option of a grammar none of whose options holds an equals sign. -/
def HasLong (grammar : Grammar σ) (name : Text) : Prop :=
  (∀ n ∈ grammar.names, equalsSign ∉ n) ∧ IsLong name ∧ name ∈ grammar.names

instance (grammar : Grammar σ) (name : Text) : Decidable (grammar.HasLong name) :=
  inferInstanceAs (Decidable (_ ∧ _ ∧ _))

theorem sets_assigned {name : Text} {set : Value → σ → σ} (hname : grammar.HasLong name)
    (heffect : grammar.effect? name = some (.value set)) (value : Text) :
    grammar.Sets (assigned name value) (set (carriedValue value)) := by
  obtain ⟨hlong, hname, hmem⟩ := hname
  refine ⟨assigned_ne_separator name value, _, classifyOne_assigned hlong hname hmem value,
    fun complete values rest => ?_⟩
  rw [read, heffect]
  rfl

/-- One argument that sets some values. -/
theorem readFrom_of_sets {argument : Text} {set : σ → σ} (h : grammar.Sets argument set)
    (rest : List Text) : grammar.readFrom complete values (argument :: rest) =
      grammar.readFrom complete (set values) rest := by
  obtain ⟨hne, piece, hpiece, hread⟩ := h
  rw [readFrom, readFrom, classify_cons hne hpiece]
  cases classify grammar.names rest with
  | none => rfl
  | some pieces => exact hread complete values pieces

/-- **Options that set some values are read one after the other**, and then what follows. -/
theorem readFrom_append {α : Type} {argument : α → Text} {apply : α → σ → σ}
    (h : ∀ option, grammar.Sets (argument option) (apply option)) (options : List α)
    (rest : List Text) : grammar.readFrom complete values (options.map argument ++ rest) =
      grammar.readFrom complete (options.foldl (fun values option => apply option values) values)
        rest := by
  induction options generalizing values with
  | nil => rfl
  | cons option options ih =>
    rw [List.map_cons, List.cons_append, readFrom_of_sets (h option), ih]
    rfl

end Grammar

/-! ### The command -/

/-- An argument that belongs to a command: the program does not take it for several of its own
options. -/
def Passes (argument : Text) : Prop :=
  argument ≠ separator ∧ (classifyOne programGrammar.names argument).isSome

theorem passes_assigned {name : Text} (hname : IsLong name)
    (hnone : ∀ n ∈ programGrammar.names, Text.after? name n = none) (value : Text) :
    Passes (assigned name value) :=
  ⟨assigned_ne_separator name value, isSome_classifyOne_assigned (by decide) hname hnone value⟩

/-- All that follows the name of a command belongs to it. -/
theorem parseArguments_command {command : Text}
    (hcommand : command ≠ separator ∧
      classifyOne programGrammar.names command = some .operand) {front rest : List Text}
    (hfront : ∀ argument ∈ front, Passes argument)
    (hrest : (classify programGrammar.names rest).isSome) :
    parseArguments (command :: (front ++ rest)) =
      parseCommand command (front ++ rest) ⟨false, none⟩ := by
  obtain ⟨pieces, hpieces⟩ := Option.isSome_iff_exists.1 (isSome_classify_append hfront hrest)
  rw [parseArguments, Grammar.parse, classify_cons hcommand.1 hcommand.2, hpieces]
  dsimp only [Option.map_some]
  rw [Grammar.read.eq_def]
  dsimp only [programGrammar]
  rw [map_fst_of_classify hpieces]
  cases parseCommand command (front ++ rest) ⟨false, none⟩ <;> rfl

/-! ### Options of both conversions -/

/-- An option that shapes documents. -/
inductive StyleOption where
  | strict
  | draft (name : Text)
deriving DecidableEq

namespace StyleOption

/-- The argument of an option. -/
def argument : StyleOption → Text
  | strict => "--strict"
  | draft name => assigned "--draft" name

/-- What an option asks for. -/
def apply : StyleOption → Style → Style
  | strict, style => { style with strict := true }
  | draft name, style => { style with draft := (Grammar.carriedValue name).text }

/-- The draft that an option names. -/
def draft? : StyleOption → Option Text
  | strict => none
  | draft name => some name

theorem passes (option : StyleOption) : Passes option.argument := by
  cases option with
  | strict => exact ⟨by decide, by decide +kernel⟩
  | draft name => exact passes_assigned (by decide) (by decide +kernel) name

/-- Documents are strict if one of the options asks for it, and the last draft counts. -/
theorem foldl_apply (options : List StyleOption) (style : Style) :
    options.foldl (fun style option => option.apply style) style =
      ⟨style.strict || decide (strict ∈ options),
        (((options.filterMap draft?).getLast?).map fun name =>
          (Grammar.carriedValue name).text).getD style.draft⟩ := by
  induction options generalizing style with
  | nil => simp
  | cons option options ih =>
    rw [List.foldl_cons, ih]
    cases option with
    | strict => simp [apply, draft?]
    | draft name =>
      have hlast : ((draft name :: options).filterMap draft?).getLast? =
          some ((options.filterMap draft?).getLast?.getD name) := by
        simp only [List.filterMap_cons, draft?, List.getLast?_cons]
      rw [hlast]
      cases (options.filterMap draft?).getLast? <;> simp [apply]

end StyleOption

/-- Among other options, only those that shape documents change the style. -/
theorem StyleOption.view_foldl_apply {α σ : Type} {view : σ → Style} {apply : α → σ → σ}
    {style? : α → Option StyleOption}
    (h : ∀ option a, view (apply option a) =
      ((style? option).map fun shaping => shaping.apply (view a)).getD (view a))
    (options : List α) (a : σ) :
    view (options.foldl (fun a option => apply option a) a) =
      (options.filterMap style?).foldl (fun style option => option.apply style) (view a) := by
  induction options generalizing a with
  | nil => rfl
  | cons option options ih =>
    rw [List.foldl_cons, ih, h, List.filterMap_cons]
    cases style? option <;> rfl

/-- Some options ask for strict documents or do not, and name a draft. -/
structure Shapes (options : List StyleOption) (strict : Bool) (draft : Text) : Prop where
  strict_iff : .strict ∈ options ↔ strict = true
  draft_eq : (options.filterMap StyleOption.draft?).getLast? = some draft

theorem Shapes.foldl_apply {options : List StyleOption} {strict : Bool} {draft : Text}
    (h : Shapes options strict draft) :
    options.foldl (fun style option => option.apply style) Style.default =
      ⟨strict, (Grammar.carriedValue draft).text⟩ := by
  have hstrict : decide (StyleOption.strict ∈ options) = strict := by
    rw [Bool.eq_iff_iff, decide_eq_true_iff]
    exact h.strict_iff
  rw [StyleOption.foldl_apply, h.draft_eq, hstrict]
  rfl

/-! ### The conversion of one schema -/

/-- An option of the conversion of one schema. -/
inductive OneOption where
  | style (option : StyleOption)
  | output (path : Text)
  | registry (address : Text)
  | subject (name : Text)
  | version (number : Text)

namespace OneOption

/-- The argument of an option. -/
def argument : OneOption → Text
  | style option => option.argument
  | output path => assigned "--out" path
  | registry address => assigned "--registry" address
  | subject name => assigned "--subject" name
  | version number => assigned "--schema-version" number

/-- What an option asks for. -/
def apply : OneOption → ConvertOne → ConvertOne
  | style option, a => { a with style := option.apply a.style }
  | output path, a => { a with output := Grammar.carriedValue path }
  | registry address, a => { a with registry := Grammar.carriedValue address }
  | subject name, a => { a with subject := Grammar.carriedValue name }
  | version number, a => { a with version := (Grammar.carriedValue number).text }

/-- The option that shapes documents, if it is one. -/
def style? : OneOption → Option StyleOption
  | style option => some option
  | _ => none

theorem sets (option : OneOption) : convertOneGrammar.Sets option.argument option.apply := by
  have hnames : convertOneGrammar.HasLong "--draft" ∧ convertOneGrammar.HasLong "--out" ∧
      convertOneGrammar.HasLong "--registry" ∧ convertOneGrammar.HasLong "--subject" ∧
      convertOneGrammar.HasLong "--schema-version" := by
    decide
  obtain ⟨hdraft, hout, hregistry, hsubject, hversion⟩ := hnames
  cases option with
  | style option =>
    cases option with
    | strict => exact Grammar.sets_flag (by decide) (by decide) rfl
    | draft name => exact Grammar.sets_assigned hdraft rfl name
  | output path => exact Grammar.sets_assigned hout rfl path
  | registry address => exact Grammar.sets_assigned hregistry rfl address
  | subject name => exact Grammar.sets_assigned hsubject rfl name
  | version number => exact Grammar.sets_assigned hversion rfl number

theorem passes (option : OneOption) : Passes option.argument := by
  cases option with
  | style option => exact option.passes
  | output path => exact passes_assigned (by decide) (by decide +kernel) path
  | registry address => exact passes_assigned (by decide) (by decide +kernel) address
  | subject name => exact passes_assigned (by decide) (by decide +kernel) name
  | version number => exact passes_assigned (by decide) (by decide +kernel) number

theorem style_foldl_apply (options : List OneOption) (a : ConvertOne) :
    (options.foldl (fun a option => option.apply a) a).style =
      (options.filterMap style?).foldl (fun style option => option.apply style) a.style :=
  StyleOption.view_foldl_apply (fun option a => by cases option <;> rfl) options a

end OneOption

/-- What some options and perhaps an input ask for. -/
def askedOne (options : List OneOption) (input : Option Text) : ConvertOne :=
  let asked := options.foldl (fun a option => option.apply a) ConvertOne.default
  match input with
  | none => asked
  | some path => { asked with input := some path }

theorem style_askedOne (options : List OneOption) (input : Option Text) :
    (askedOne options input).style =
      (options.filterMap OneOption.style?).foldl (fun style option => option.apply style)
        Style.default := by
  cases input <;> exact OneOption.style_foldl_apply options ConvertOne.default

/-- The arguments of an input, whatever it is called. -/
def inputArguments : Option Text → List Text
  | none => []
  | some path => [separator, path]

/-- The command line of a conversion of one schema. -/
def commandLineOne (options : List OneOption) (input : Option Text) : List Text :=
  "a2j" :: (options.map OneOption.argument ++ inputArguments input)

/-- **The command line of a conversion of one schema is read**, with options in any order. -/
theorem parseArguments_one (options : List OneOption) (input : Option Text) :
    parseArguments (commandLineOne options input) =
      .values ⟨false, some (.one (askedOne options input))⟩ true := by
  have hinput : (classify programGrammar.names (inputArguments input)).isSome := by
    cases input with
    | none => rfl
    | some path => exact isSome_classify_separator _ _
  have hparse : convertOneGrammar.parse ConvertOne.default
      (options.map OneOption.argument ++ inputArguments input) =
        .values (askedOne options input) true := by
    refine (Grammar.readFrom_append OneOption.sets options _).trans ?_
    cases input <;> rfl
  have hpasses : ∀ argument ∈ options.map OneOption.argument, Passes argument :=
    List.forall_mem_map.2 fun option _ => option.passes
  rw [commandLineOne, parseArguments_command (by decide) hpasses hinput, parseCommand, if_pos rfl]
  simp only [hparse]

example : commandLineOne [.style .strict, .style (.draft "draft-2020-12")] (some "order.avsc") =
    ["a2j", "--strict", "--draft=draft-2020-12", "--", "order.avsc"].map Text.ofString := by
  decide

/-! ### The conversion of a directory -/

/-- An option of the conversion of a directory. -/
inductive AllOption where
  | style (option : StyleOption)
  | source (path : Text)
  | output (path : Text)

namespace AllOption

/-- The argument of an option. -/
def argument : AllOption → Text
  | style option => option.argument
  | source path => assigned "--src" path
  | output path => assigned "--out" path

/-- What an option asks for. -/
def apply : AllOption → ConvertAll → ConvertAll
  | style option, a => { a with style := option.apply a.style }
  | source path, a => { a with source := some (Grammar.carriedValue path) }
  | output path, a => { a with output := some (Grammar.carriedValue path) }

/-- The option that shapes documents, if it is one. -/
def style? : AllOption → Option StyleOption
  | style option => some option
  | _ => none

theorem sets (option : AllOption) : convertAllGrammar.Sets option.argument option.apply := by
  have hnames : convertAllGrammar.HasLong "--draft" ∧ convertAllGrammar.HasLong "--src" ∧
      convertAllGrammar.HasLong "--out" := by
    decide
  obtain ⟨hdraft, hsource, hout⟩ := hnames
  cases option with
  | style option =>
    cases option with
    | strict => exact Grammar.sets_flag (by decide) (by decide) rfl
    | draft name => exact Grammar.sets_assigned hdraft rfl name
  | source path => exact Grammar.sets_assigned hsource rfl path
  | output path => exact Grammar.sets_assigned hout rfl path

theorem passes (option : AllOption) : Passes option.argument := by
  cases option with
  | style option => exact option.passes
  | source path => exact passes_assigned (by decide) (by decide +kernel) path
  | output path => exact passes_assigned (by decide) (by decide +kernel) path

theorem style_foldl_apply (options : List AllOption) (a : ConvertAll) :
    (options.foldl (fun a option => option.apply a) a).style =
      (options.filterMap style?).foldl (fun style option => option.apply style) a.style :=
  StyleOption.view_foldl_apply (fun option a => by cases option <;> rfl) options a

end AllOption

/-- What some options ask for. -/
def askedAll (options : List AllOption) : ConvertAll :=
  options.foldl (fun a option => option.apply a) ConvertAll.default

/-- The command line of a conversion of a directory. -/
def commandLineAll (options : List AllOption) : List Text :=
  "a2j-dir" :: options.map AllOption.argument

/-- **The command line of a conversion of a directory is read**, with options in any order; both
directories have to be named. -/
theorem parseArguments_all (options : List AllOption) :
    parseArguments (commandLineAll options) =
      match (askedAll options).command? with
      | some command => .values ⟨false, some command⟩ true
      | none => .refused := by
  have hparse : convertAllGrammar.parse ConvertAll.default (options.map AllOption.argument ++ []) =
      .values (askedAll options) true :=
    Grammar.readFrom_append AllOption.sets options []
  have hpasses : ∀ argument ∈ options.map AllOption.argument, Passes argument :=
    List.forall_mem_map.2 fun option _ => option.passes
  rw [commandLineAll, ← List.append_nil (options.map AllOption.argument),
    parseArguments_command (by decide) hpasses rfl, parseCommand, if_neg (by decide), if_pos rfl]
  cases hcommand : (askedAll options).command? with
  | none => simp only [hparse, hcommand]
  | some command => simp only [hparse, hcommand]

end CommandLine

end AvroJsonSchema
