import AvroJsonSchema.CommandLine.Needs

/-!
# The program

The outer layer of the command line.  It loads what stands where the arguments lead, runs them on
it, writes the files that are new or different and prints what is printed.  It lists no directory
of its own accord: the files below a source directory are those that standard input names, one
path on each line.  It reaches no registry.
-/

namespace AvroJsonSchema

namespace Program

open CommandLine

/-- All octets that are left on a stream, after some that have been read. -/
partial def readOctets (stream : IO.FS.Stream) (before : ByteArray) : IO ByteArray := do
  let octets ← stream.read 65536
  if octets.isEmpty then return before else readOctets stream (before ++ octets)

/-- The text on standard input. -/
def readInput : IO (Except Fault Text) := do
  return Files.decodeText (← readOctets (← IO.getStdin) ByteArray.empty).toList

/-- The path of a place. -/
def placePath (names : List Text) : String :=
  "/" ++ (FileTree.pathText names).toString

/-- Whether a directory stands at a place. -/
def isDirectory (names : List Text) : IO Bool := do
  match ← (IO.FS.realPath (placePath names ++ "/.")).toBaseIO with
  | .ok _ => return true
  | .error _ => return false

/-- Loads what stands at a place; of a directory nothing that is in it. -/
def loadPlace (system : FileSystem) (names : List Text) : IO FileSystem := do
  if (system.root.find? names).isSome then return system
  else if ← isDirectory names then return system.put names FileTree.emptyDir
  else
    match ← (IO.FS.readBinFile (placePath names)).toBaseIO with
    | .ok octets => return system.put names (.file octets.toList)
    | .error _ => return system

/-- Loads what stands where some paths lead. -/
def loadPaths (system : FileSystem) (paths : List Text) : IO FileSystem :=
  (paths.flatMap system.places).foldlM loadPlace system

/-- The files that a command looks at, where standard input has a text. -/
def loadFiles (command : Command) (input : Except Fault Text) : IO FileSystem := do
  let here := Text.ofString (toString (← IO.currentDir))
  let listed :=
    match command.inputUse, input with
    | .listing, .ok listing => listedPaths listing
    | _, _ => []
  let system ← loadPaths (FileSystem.fresh (Path.components here)) (command.paths ++ listed)
  loadPaths system (command.documentPaths system)

/-- What a command works on. -/
def loadWorld (command : Command) : IO World := do
  let input ← if command.inputUse = .nothing then pure (.ok []) else readInput
  return ⟨← loadFiles command input, input, fun _ => none⟩

/-- Writes a file, with the directories above it. -/
def writeFile (path : Text) (octets : List UInt8) : IO Unit := do
  let path : Text := Path.slash :: path
  IO.FS.createDirAll (Text.toString (Path.dirname path))
  IO.FS.writeBinFile (Text.toString path) octets.toByteArray

/-- Runs the program with some arguments; its status. -/
def run (arguments : List Text) : IO Nat := do
  let world ←
    match command? arguments with
    | some command => loadWorld command
    | none => pure ⟨FileSystem.fresh [], .ok [], fun _ => none⟩
  let outcome := CommandLine.run world arguments
  for file in FileTree.changes world.files.root outcome.files.root do
    writeFile file.1 file.2
  IO.print outcome.printed.toString
  return outcome.status

end Program

end AvroJsonSchema

def main (arguments : List String) : IO UInt32 := do
  return UInt32.ofNat (← AvroJsonSchema.Program.run (arguments.map AvroJsonSchema.Text.ofString))
