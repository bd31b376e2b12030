import AvroJsonSchema.Document
import AvroJsonSchema.Files.System

/-!
# Converting files

A schema file becomes a document file, and the schema files below a directory become document
files at the same places below another one.  Files are read as UTF-8 with all line ends unified.
A directory is worked off in order, and the first fault ends it; what has been written before
stays.

* **`Files.readText`**, **`Files.writeText`**: the text of a file.
* **`Files.visitSchemas`**: the walk along the schema files below a directory.
* **`Files.convertFile`**: one schema file.  **`Files.convertDirectory`**: all below a directory.
* **`Files.schemaFiles`**, **`Files.documentPaths`**: the schema files at one time, and where their
  documents go.
-/

namespace AvroJsonSchema

namespace Files

/-- The text of some octets, with all line ends unified. -/
def decodeText (bytes : List UInt8) : Except Fault Text :=
  match Utf8.decode bytes with
  | .ok t => .ok t.unifyLineEnds
  | .error fault => .error (.undecodable fault)

/-- The text of a file. -/
def readText (system : FileSystem) (path : Text) : Except Fault Text := do
  decodeText (← system.readFile path)

/-- The system with a file of a text. -/
def writeText (system : FileSystem) (path text : Text) : Except Fault Unit × FileSystem :=
  match system.writeFile path (text.flatMap Utf8.encodePoint) with
  | .ok system => (.ok (), system)
  | .error fault => (.error fault, system)

/-- The system with a file of a text, with the directories above it, and the fault if there is
one. -/
def writeBelow (system : FileSystem) (directory path text : Text) :
    Except Fault Unit × FileSystem :=
  match system.makeDirectories directory with
  | (.ok _, system) => writeText system path text
  | (.error fault, system) => (.error fault, system)

/-- The system with a document where it is wanted; an empty path means that it is not. -/
def writeOutput (system : FileSystem) (path text : Text) : Except Fault Unit × FileSystem :=
  if path.isEmpty then (.ok (), system)
  else if (Path.dirname path).isEmpty then writeText system path text
  else writeBelow system (Path.dirname path) path text

/-- Converts a schema file; the text of the document, and the system with its file. -/
def convertFile (system : FileSystem) (input output : Text) (preset : Json) (draft : Option Draft) :
    Except Fault Text × FileSystem :=
  match readText system input >>= Document.ofTextWith preset draft with
  | .error fault => (.error fault, system)
  | .ok document =>
    match writeOutput system output document with
    | (.ok _, system) => (.ok document, system)
    | (.error fault, system) => (.error fault, system)

/-- The ending of schema files. -/
def schemaEnding : Text := ".avsc"

/-- The ending of document files. -/
def documentEnding : Text := ".json"

/-- Whether a name is that of a schema file. -/
def isSchemaName (name : Text) : Bool :=
  (Text.before? schemaEnding name).isSome

/-- The path of the document of a schema file, from the path of the schema file. -/
def documentPath (path : Text) : Text :=
  path.take (path.length - schemaEnding.length) ++ documentEnding

/-- The path of the document of a schema file below an output, from the names of the schema file. -/
def documentOf (output : Text) (names : List Text) : Text :=
  Path.join output (documentPath (FileTree.pathText names))

/-! ### Visiting the schema files below a directory

A directory is listed when the visit comes to it, and a file is read when its turn comes, so what
has been written on the way is seen. -/

/-- What there is to visit in a directory: the schema files and then the directories, both sorted by
name; each with whether it is a file. -/
def agenda : FileTree → List (Text × Bool)
  | .file _ => []
  | .dir entries =>
    ((FileTree.byName (entries.filter (·.2.isFile))).filter (isSchemaName ·.1)).map (·.1, true)
      ++ (FileTree.byName (entries.filter (!·.2.isFile))).map (·.1, false)

/-- A run and then another one from where the first has ended; the sum of what they count.  A fault
of the first ends it. -/
def andThen (first : Except Fault Nat × FileSystem)
    (next : FileSystem → Except Fault Nat × FileSystem) : Except Fault Nat × FileSystem :=
  match first with
  | (.error fault, system) => (.error fault, system)
  | (.ok n, system) =>
    let (count, system) := next system
    (count.map (n + ·), system)

/-- One run after the other. -/
def inTurn {α : Type} (run : α → FileSystem → Except Fault Nat × FileSystem) :
    List α → FileSystem → Except Fault Nat × FileSystem
  | [], system => (.ok 0, system)
  | a :: more, system => andThen (run a system) (inTurn run more)

/-- A run that counts as one. -/
def counted (result : Except Fault Unit × FileSystem) : Except Fault Nat × FileSystem :=
  (result.1.map fun _ => 1, result.2)

/-- Visits the schema files of a directory and below, each told by its names from the source on;
how many there are.  A directory that cannot be listed is passed over.  The visit goes down some
directories and no further. -/
def visitBelow (visit : List Text → FileSystem → Except Fault Unit × FileSystem) (source : Text) :
    Nat → List Text → FileSystem → Except Fault Nat × FileSystem
  | 0, _, system => (.ok 0, system)
  | depth + 1, names, system =>
    match system.directory? (Path.below source names) with
    | none => (.ok 0, system)
    | some directory =>
      inTurn (fun item system =>
        if item.2 then counted (visit (names ++ [item.1]) system)
        else visitBelow visit source depth (names ++ [item.1]) system) (agenda directory) system

/-- Visits the schema files below a source.  No path has more names than octets, so the visit ends
before the depth does. -/
def visitSchemas (visit : List Text → FileSystem → Except Fault Unit × FileSystem) (source : Text)
    (system : FileSystem) : Except Fault Nat × FileSystem :=
  visitBelow visit source (Path.pathLimit + 1) [] system

/-- Converts the schema file of some names below a source into a document file below an output. -/
def convertSchema (options : Options) (source output : Text) (names : List Text)
    (system : FileSystem) : Except Fault Unit × FileSystem :=
  match readText system (Path.below source names) >>= Document.ofText options.setup with
  | .error fault => (.error fault, system)
  | .ok document =>
    let path := documentOf output names
    writeBelow system (Path.dirname path) path document

/-- Converts all schema files of a directory and below; none if there is no such directory. -/
def convertDirectory (system : FileSystem) (source output : Text) (preset : Json)
    (draft : Option Draft) : Except Fault Nat × FileSystem :=
  if (system.directory? source).isNone then (.ok 0, system)
  else
    match Options.resolve preset draft with
    | .error fault => (.error fault, system)
    | .ok options => visitSchemas (convertSchema options source output) source system

/-! ### Where documents go -/

/-- Whether the last of some names is that of a schema file. -/
def isSchemaPlace (names : List Text) : Bool :=
  names.getLast?.any isSchemaName

/-- The schema files of a directory and below, in order, by their names, with their octets. -/
def schemaFiles (directory : FileTree) : List (List Text × List UInt8) :=
  directory.walk.filter (isSchemaPlace ·.1)

/-- The paths of the documents of the schema files of a directory and below. -/
def documentPaths (system : FileSystem) (source output : Text) : List Text :=
  match system.directory? source with
  | none => []
  | some directory =>
    (schemaFiles directory).map fun e => documentOf output e.1

end Files

end AvroJsonSchema
