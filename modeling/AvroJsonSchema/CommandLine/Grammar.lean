import AvroJsonSchema.Text.Digit

/-!
# A grammar of arguments

The arguments of a program are options, which begin with a dash, and operands.  An option may be
shortened as long as it stays the only one with that beginning, and its value follows it or stands
behind an equals sign.  After two dashes everything is an operand, and two dashes behind an equals
sign are no value.  What looks like a negative number, or holds a space, is an operand unless it is
an option.  The first operand may be a command, to which all that follows belongs.  The rules are those
of release 3.11.8 of the argument parser.

* **`Grammar`**: the options of a program and where their values go.
* **`Grammar.classify`**: what each argument is.
* **`Grammar.parse`**: the values of some arguments, a request for help, or a refusal.
-/

namespace AvroJsonSchema

namespace CommandLine

/-- What comes of reading arguments. -/
inductive Parsed (σ : Type) where
  /-- The text of a help that was asked for. -/
  | help (text : Text)
  | refused
  /-- Values, and whether every argument had a meaning. -/
  | values (values : σ) (complete : Bool)

/-- What is given for an option that takes a value; two dashes carry none. -/
abbrev Value := Option Text

/-- What an option does to the values read so far. -/
inductive Effect (σ : Type) where
  /-- Shows a help and ends the program. -/
  | help (text : Text)
  | flag (set : σ → σ)
  | value (set : Value → σ → σ)

/-- What becomes of the operands. -/
inductive Operands (σ : Type) where
  /-- There are none. -/
  | none
  /-- There is at most one. -/
  | optional (set : Text → σ → σ)
  /-- The first one is a command, and what follows are its arguments. -/
  | command (run : Text → List Text → σ → Parsed σ)

/-- The options of a program by name, and its operands. -/
structure Grammar (σ : Type) where
  options : List (Text × Effect σ)
  operands : Operands σ

/-- What an argument is. -/
inductive Piece where
  | operand
  /-- The two dashes after which everything is an operand. -/
  | separator
  /-- An option and the text that it carries itself: behind an equals sign, or right behind the
  letter of a short option. -/
  | option (name : Text) (carried : Option Text)
  /-- What looks like an option but is none. -/
  | unknown
deriving DecidableEq

/-- The dash. -/
def dash : CodePoint := CodePoint.ofNat 45

/-- The equals sign. -/
def equalsSign : CodePoint := CodePoint.ofNat 61

/-- The two dashes that end the options. -/
def separator : Text := "--"

/-- Whether an argument looks like a negative number: digits after a dash, perhaps with a point
among them, and perhaps a line feed at the end. -/
def isNegativeNumber (argument : Text) : Bool :=
  match argument with
  | [] => false
  | c :: rest =>
    let rest := if rest.getLast?.any (·.val = 10) then rest.dropLast else rest
    let whole := rest.takeWhile (·.decimal?.isSome)
    match rest.drop whole.length with
    | [] => c = dash && !whole.isEmpty
    | point :: fraction =>
      c = dash && point.val = 46 && !fraction.isEmpty && fraction.all (·.decimal?.isSome)

/-- The part of an argument before its first equals sign, and the part after it. -/
def assignment? (argument : Text) : Option (Text × Text) :=
  match argument.dropWhile (· ≠ equalsSign) with
  | [] => none
  | _ :: value => some (argument.takeWhile (· ≠ equalsSign), value)

/-- The options that a long argument may be short for. -/
def longMatches (names : List Text) (argument : Text) : List Piece :=
  let (beginning, carried) :=
    match assignment? argument with
    | some (name, value) => (name, some value)
    | none => (argument, none)
  (names.filter fun name => (Text.after? beginning name).isSome).map (.option · carried)

/-- The options that an argument of a single dash may stand for. -/
def shortMatches (names : List Text) (argument : Text) : List Piece :=
  names.filterMap fun name =>
    if name = argument.take 2 then some (.option name (some (argument.drop 2)))
    else if (Text.after? argument name).isSome then some (.option name none)
    else none

/-- What an argument is where the options have some names; nothing if it may be short for several
options. -/
def classifyOne (names : List Text) (argument : Text) : Option Piece :=
  match argument with
  | [] => some .operand
  | [_] => some .operand
  | c :: d :: _ =>
    if c ≠ dash then some .operand
    else if names.contains argument then some (.option argument none)
    else
      match (assignment? argument).filter fun part => names.contains part.1 with
      | some (name, value) => some (.option name (some value))
      | none =>
        match if d = dash then longMatches names argument else shortMatches names argument with
        | _ :: _ :: _ => none
        | [piece] => some piece
        | [] =>
          if isNegativeNumber argument || argument.any (·.val = 32) then some .operand
          else some .unknown

/-- What each argument is; nothing if one may be short for several options. -/
def classify (names : List Text) : List Text → Option (List (Text × Piece))
  | [] => some []
  | argument :: rest =>
    if argument = separator then
      some ((argument, .separator) :: rest.map fun operand => (operand, .operand))
    else do
      let piece ← classifyOne names argument
      let pieces ← classify names rest
      pure ((argument, piece) :: pieces)

namespace Grammar

variable {σ : Type}

/-- The names of the options. -/
def names (grammar : Grammar σ) : List Text :=
  grammar.options.map Prod.fst

/-- What an option of a name does. -/
def effect? (grammar : Grammar σ) (name : Text) : Option (Effect σ) :=
  (grammar.options.find? (·.1 = name)).map Prod.snd

/-- Whether an option that takes no value may carry a text: a short option may carry its own letter
again, as often as is liked. -/
def admits (name : Text) : Option Text → Bool
  | none => true
  | some t =>
    match name with
    | [_, letter] => !t.isEmpty && t.all (· = letter)
    | _ => false

/-- The value in a text that an option carries.  That two dashes are none is so up to release 3.11.8;
the releases 3.11.10 and 3.12.3 keep them as the value. -/
def carriedValue (t : Text) : Value :=
  if t = separator then none else some t

/-- Whether the one operand that is admitted has been read. -/
inductive Slot where
  | free
  /-- By the argument before. -/
  | justTaken
  | taken

/-- The slot after an argument that is no operand. -/
def Slot.later : Slot → Slot
  | .free => .free
  | _ => .taken

/-- Reads the arguments from front to back. -/
def read (grammar : Grammar σ) (slot : Slot) (complete : Bool) (values : σ) :
    List (Text × Piece) → Parsed σ
  | [] => .values values complete
  | (argument, .operand) :: rest =>
    match grammar.operands, slot with
    | .optional set, .free => grammar.read .justTaken complete (set argument values) rest
    | .command run, _ =>
      match run argument (rest.map Prod.fst) values with
      | .values values all => .values values (complete && all)
      | parsed => parsed
    | _, _ => grammar.read .taken false values rest
  | (_, .separator) :: rest =>
    match grammar.operands, slot with
    | .optional _, .taken => grammar.read slot false values rest
    | .optional _, _ => grammar.read slot complete values rest
    | .command _, _ => if rest.isEmpty then .values values false else .refused
    | .none, _ => grammar.read slot false values rest
  | (_, .unknown) :: rest => grammar.read slot.later false values rest
  | (_, .option name carried) :: rest =>
    match grammar.effect? name with
    | none => .refused
    | some (.help text) => if admits name carried then .help text else .refused
    | some (.flag set) =>
      if admits name carried then grammar.read slot.later complete (set values) rest else .refused
    | some (.value set) =>
      match carried, rest with
      | some t, rest => grammar.read slot.later complete (set (carriedValue t) values) rest
      | none, (t, .operand) :: rest => grammar.read slot.later complete (set (some t) values) rest
      | none, _ => .refused

/-- Reads some arguments into values. -/
def parse (grammar : Grammar σ) (values : σ) (arguments : List Text) : Parsed σ :=
  match classify grammar.names arguments with
  | none => .refused
  | some pieces => grammar.read .free true values pieces

end Grammar

end CommandLine

end AvroJsonSchema
