import AvroJsonSchema.CommandLine.Grammar
import AvroJsonSchema.Registry

/-!
# The arguments of the program

The program converts one schema, from a file, a registry or standard input, or all schema files
below a directory.

* **`Invocation`**: what the program is asked to do.
* **`parseArguments`**: the invocation that some arguments ask for.
-/

namespace AvroJsonSchema

namespace CommandLine

/-- How documents are shaped. -/
structure Style where
  strict : Bool
  draft : Text
deriving DecidableEq

/-- The conversion of one schema. -/
structure ConvertOne where
  input : Option Text
  registry : Option Text
  subject : Option Text
  version : Text
  output : Option Text
  style : Style
deriving DecidableEq

/-- The conversion of a directory; each directory may not have been named yet. -/
structure ConvertAll where
  source : Option Value
  output : Option Value
  style : Style
deriving DecidableEq

/-- What the program can do. -/
inductive Command where
  | one (arguments : ConvertOne)
  /-- All schema files below a directory, with their documents below another. -/
  | all (source output : Value) (style : Style)

/-- What the program is asked to do. -/
structure Invocation where
  version : Bool
  command : Option Command

/-- The style without options. -/
def Style.default : Style := ⟨false, "draft-07"⟩

/-- The conversion of standard input. -/
def ConvertOne.default : ConvertOne where
  input := none
  registry := none
  subject := none
  version := Registry.latest
  output := none
  style := Style.default

/-- The conversion of a directory that has not been named. -/
def ConvertAll.default : ConvertAll where
  source := none
  output := none
  style := Style.default

/-- What a missing value is written as. -/
def missingValue : Text := "[]"

/-- The text that a value is written as. -/
def Value.text (value : Value) : Text :=
  value.getD missingValue

/-- Some lines, each with its end. -/
def lines (ls : List String) : Text :=
  ls.flatMap fun l => Text.ofString l ++ Text.ofString "\n"

/-- The help of the program. -/
def programHelp : Text :=
  lines [
    "usage: avrotojsons [-h] [--version] \x7ba2j,a2j-dir\x7d ...",
    "",
    "Convert Avro schemas to JSON Schema.",
    "",
    "positional arguments:",
    "  \x7ba2j,a2j-dir\x7d",
    "    a2j          Convert an Avro schema to JSON Schema.",
    "    a2j-dir      Convert all Avro schemas in a directory to JSON Schema.",
    "",
    "options:",
    "  -h, --help     show this help message and exit",
    "  --version      Print the version of avrotojsons."]

/-- The help of the conversion of one schema. -/
def convertOneHelp : Text :=
  lines [
    "usage: avrotojsons a2j [-h] [--registry REGISTRY] [--subject SUBJECT]",
    "                       [--schema-version SCHEMA_VERSION] [--out OUT]",
    "                       [--strict] [--draft DRAFT]",
    "                       [input]",
    "",
    "positional arguments:",
    "  input                 The Avro schema file (.avsc). Reads stdin if neither a",
    "                        file nor a registry is given.",
    "",
    "options:",
    "  -h, --help            show this help message and exit",
    "  --registry REGISTRY   Schema Registry URL.",
    "  --subject SUBJECT     Schema subject name.",
    "  --schema-version SCHEMA_VERSION",
    "                        Schema version in the registry (default: latest).",
    "  --out OUT             The output JSON Schema file. Prints to stdout if",
    "                        omitted.",
    "  --strict              Use strict JSON Schema mode (no POJO optimizations).",
    "  --draft DRAFT         JSON Schema draft version: draft-07 or draft-2020-12",
    "                        (default: draft-07)."]

/-- The help of the conversion of a directory. -/
def convertAllHelp : Text :=
  lines [
    "usage: avrotojsons a2j-dir [-h] --src SRC --out OUT [--strict] [--draft DRAFT]",
    "",
    "options:",
    "  -h, --help     show this help message and exit",
    "  --src SRC      Directory containing .avsc files.",
    "  --out OUT      Output directory for the .json files.",
    "  --strict       Use strict JSON Schema mode (no POJO optimizations).",
    "  --draft DRAFT  JSON Schema draft version: draft-07 or draft-2020-12",
    "                 (default: draft-07)."]

/-- The arguments of the conversion of one schema. -/
def convertOneGrammar : Grammar ConvertOne where
  options := [
    ("-h", .help convertOneHelp),
    ("--help", .help convertOneHelp),
    ("--registry", .value fun v a => { a with registry := v }),
    ("--subject", .value fun v a => { a with subject := v }),
    ("--schema-version", .value fun v a => { a with version := v.text }),
    ("--out", .value fun v a => { a with output := v }),
    ("--strict", .flag fun a => { a with style := { a.style with strict := true } }),
    ("--draft", .value fun v a => { a with style := { a.style with draft := v.text } })]
  operands := .optional fun t a => { a with input := some t }

/-- The arguments of the conversion of a directory. -/
def convertAllGrammar : Grammar ConvertAll where
  options := [
    ("-h", .help convertAllHelp),
    ("--help", .help convertAllHelp),
    ("--src", .value fun v a => { a with source := some v }),
    ("--out", .value fun v a => { a with output := some v }),
    ("--strict", .flag fun a => { a with style := { a.style with strict := true } }),
    ("--draft", .value fun v a => { a with style := { a.style with draft := v.text } })]
  operands := .none

/-- The command of a conversion of a directory, of which both directories have to be named. -/
def ConvertAll.command? (arguments : ConvertAll) : Option Command := do
  let source ← arguments.source
  let output ← arguments.output
  pure (.all source output arguments.style)

/-- Reads the arguments of a command. -/
def parseCommand (name : Text) (arguments : List Text) (invocation : Invocation) :
    Parsed Invocation :=
  if name = Text.ofString "a2j" then
    match convertOneGrammar.parse ConvertOne.default arguments with
    | .help text => .help text
    | .refused => .refused
    | .values values complete =>
      .values { invocation with command := some (.one values) } complete
  else if name = Text.ofString "a2j-dir" then
    match convertAllGrammar.parse ConvertAll.default arguments with
    | .help text => .help text
    | .refused => .refused
    | .values values complete =>
      match values.command? with
      | some command => .values { invocation with command := some command } complete
      | none => .refused
  else .refused

/-- The arguments of the program. -/
def programGrammar : Grammar Invocation where
  options := [
    ("-h", .help programHelp),
    ("--help", .help programHelp),
    ("--version", .flag fun i => { i with version := true })]
  operands := .command parseCommand

/-- The invocation that some arguments ask for. -/
def parseArguments (arguments : List Text) : Parsed Invocation :=
  programGrammar.parse ⟨false, none⟩ arguments

end CommandLine

end AvroJsonSchema
