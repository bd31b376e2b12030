import AvroJsonSchema.CommandLine.Arguments
import AvroJsonSchema.Files.Conversion

/-!
# Running the program

An invocation is run on a file system, a text on standard input and a network.  It ends with a
status, what is printed, the requests that were made and the file system as it is then.  A fault is
printed and ends with status one; arguments without a meaning print nothing and end with status
two.  Standard output is taken to accept every text: a path may hold escaped octets and a subject
unpaired surrogates, which no encoding of Unicode has, and what names them is printed all the same.

* **`CommandLine.World`**: what an invocation is run on.
* **`CommandLine.Outcome`**: what comes of it.
* **`CommandLine.run`**: runs the program with some arguments.
-/

namespace AvroJsonSchema

namespace CommandLine

/-- What the program works on. -/
structure World where
  files : FileSystem
  /-- The text on standard input, or why it is none. -/
  input : Except Fault Text
  network : Registry.Network

/-- What comes of running the program. -/
structure Outcome where
  status : Nat
  /-- The text that is handed to standard output, which accepts every text. -/
  printed : Text
  requests : List Registry.Request
  files : FileSystem

/-- The version of the program. -/
def versionText : Text := "avrotojsons 0.1.0\n"

/-- The preset of a style. -/
def Style.preset (style : Style) : Json :=
  if style.strict then "strict" else "pojo-optimized"

/-- The draft of a style. -/
def Style.chosenDraft (style : Style) : Draft :=
  Draft.ofName (.str style.draft)

/-- A text that counts as missing if it is empty. -/
def given (t : Option Text) : Option Text :=
  t.filter (!·.isEmpty)

/-- The schema text of a conversion, and the requests that were made for it. -/
def readSchema (world : World) (arguments : ConvertOne) :
    Except Fault Text × List Registry.Request :=
  match given arguments.registry, given arguments.input with
  | some _, some _ => (.error .inputWithRegistry, [])
  | some registry, none =>
    match given arguments.subject with
    | none => (.error .subjectMissing, [])
    | some subject =>
      (Registry.Client.ofUrl registry Registry.defaultTimeout).fetch world.network subject
        arguments.version
  | none, some path => (Files.readText world.files path, [])
  | none, none => (world.input.map Text.unifyLineEnds, [])

/-- What the program calls the source of a schema. -/
def sourceName (arguments : ConvertOne) : Text :=
  ((given arguments.input).or (given arguments.subject)).getD "stdin"

/-- The document of a style for a schema text. -/
def convertText (style : Style) (text : Text) : Except Fault Text :=
  Document.ofTextWith style.preset (some style.chosenDraft) text

/-- Puts a document where it is wanted: what is printed, and the file system.  To print what a success
says is no fault, whatever stands in the names of the source and of the output. -/
def deliver (world : World) (arguments : ConvertOne) (document : Text) :
    Except Fault Text × FileSystem :=
  match given arguments.output with
  | none => (.ok (document ++ Text.ofString "\n"), world.files)
  | some path =>
    match Files.writeText world.files path document with
    | (.error fault, files) => (.error fault, files)
    | (.ok _, files) =>
      (.ok (Text.ofString "Successfully converted " ++ sourceName arguments
        ++ Text.ofString " to " ++ path ++ Text.ofString "\n"), files)

/-- What a fault prints. -/
def faultLine (fault : Fault) : Text :=
  Text.ofString "Error:  " ++ fault.message ++ Text.ofString "\n"

/-- The outcome of what was printed or went wrong. -/
def conclude (printed : Except Fault Text) (requests : List Registry.Request) (files : FileSystem) :
    Outcome :=
  match printed with
  | .ok text => ⟨0, text, requests, files⟩
  | .error fault => ⟨1, faultLine fault, requests, files⟩

/-- Converts one schema. -/
def runOne (world : World) (arguments : ConvertOne) : Outcome :=
  let (schema, requests) := readSchema world arguments
  match schema >>= convertText arguments.style with
  | .error fault => conclude (.error fault) requests world.files
  | .ok document =>
    let (printed, files) := deliver world arguments document
    conclude printed requests files

/-- Converts all schema files below a directory into another one.  A source that has no value is
refused at once, an output that has none at the first schema file. -/
def convertBelow (files : FileSystem) (source output : Value) (style : Style) :
    Except Fault Nat × FileSystem :=
  match source, output with
  | none, _ => (.error .sourceNotPath, files)
  | some source, some output =>
    Files.convertDirectory files source output style.preset (some style.chosenDraft)
  | some source, none =>
    Files.visitSchemas (fun _ files => (.error .outputNotPath, files)) source files

/-- Converts all schema files below a directory. -/
def runAll (world : World) (source output : Value) (style : Style) : Outcome :=
  let (count, files) := convertBelow world.files source output style
  let printed := count.map fun n =>
    Text.ofString "Converted " ++ Text.ofNat n ++ Text.ofString " Avro schema(s) from "
      ++ source.text ++ Text.ofString " to " ++ output.text ++ Text.ofString "\n"
  conclude printed [] files

/-- Runs the program with some arguments. -/
def run (world : World) (arguments : List Text) : Outcome :=
  match parseArguments arguments with
  | .refused => ⟨2, [], [], world.files⟩
  | .help text => ⟨0, text, [], world.files⟩
  | .values _ false => ⟨2, [], [], world.files⟩
  | .values invocation true =>
    if invocation.version then ⟨0, versionText, [], world.files⟩
    else
      match invocation.command with
      | none => ⟨0, programHelp, [], world.files⟩
      | some (.one arguments) => runOne world arguments
      | some (.all source output style) => runAll world source output style

end CommandLine

end AvroJsonSchema
