import AvroJsonSchema.Files.Tree

/-!
# File systems

A file system is a tree with a directory that relative paths start from.  A path is followed
component by component; every component but the last has to be a directory that exists.

* **`FileSystem`**: a tree and the directory of relative paths.
* **`FileSystem.locate`**: where a path leads.  **`FileSystem.entry`**: what stands there.
* **`FileSystem.readFile`**, **`FileSystem.writeFile`**, **`FileSystem.makeDirectories`**: with the
  problems that a path can have.
* **`FileSystem.changes`**: the files below the directory that are new or different.
-/

namespace AvroJsonSchema

/-- A tree of files, and the names of the directory that relative paths start from. -/
structure FileSystem where
  root : FileTree
  directory : List Text

namespace FileSystem

/-! ### Following a path -/

/-- A place as it stands, which has to be a directory. -/
def demandDirectory (system : FileSystem) (names : List Text) : Except FileProblem (List Text) :=
  match system.root.find? names with
  | none => .error .notFound
  | some (.file _) => .error .notADirectory
  | some (.dir _) => .ok names

/-- Goes from a place to one of its components; the place has to be a directory. -/
def step (system : FileSystem) (names : List Text) (component : Text) :
    Except FileProblem (List Text) := do
  let names ← system.demandDirectory names
  if Path.componentLimit < Path.octetCount component then .error .nameTooLong
  else pure (Path.follow names component)

/-- The place that a path starts from. -/
def start (system : FileSystem) (path : Text) : List Text :=
  if Path.isAbsolute path then [] else system.directory

/-- Goes from the start of a path along some of its components. -/
def walk (system : FileSystem) (path : Text) (components : List Text) :
    Except FileProblem (List Text) :=
  if path.isEmpty then .error .notFound
  else if Path.pathLimit < Path.octetCount path then .error .nameTooLong
  else components.foldlM system.step (system.start path)

/-- Where a path leads; nothing has to be there, but everything before has to be. -/
def locate (system : FileSystem) (path : Text) : Except FileProblem (List Text) :=
  system.walk path (Path.components path)

/-- The directory that the last component of a path is looked up in. -/
def locateParent (system : FileSystem) (path : Text) : Except FileProblem (List Text) := do
  system.demandDirectory (← system.walk path (Path.components path).dropLast)

/-- What stands at a path. -/
def entry (system : FileSystem) (path : Text) : Except FileProblem FileTree := do
  let names ← system.locate path
  match system.root.find? names with
  | none => .error .notFound
  | some (.file bytes) =>
    if Path.endsWithSlash path then .error .notADirectory else pure (.file bytes)
  | some (.dir entries) => pure (.dir entries)

/-- Whether anything stands at a path. -/
def hasEntry (system : FileSystem) (path : Text) : Bool :=
  match Path.check path, system.entry path with
  | .ok _, .ok _ => true
  | _, _ => false

/-- The directory at a path, if there is one. -/
def directory? (system : FileSystem) (path : Text) : Option FileTree :=
  match Path.check path, system.entry path with
  | .ok _, .ok (.dir entries) => some (.dir entries)
  | _, _ => none

/-- The places that a path passes through, whether anything stands there or not. -/
def places (system : FileSystem) (path : Text) : List (List Text) :=
  Path.places (system.start path) (Path.components path)

/-! ### Reading and writing -/

/-- The result of looking at a path, with the path told in the fault. -/
def atPath {α : Type} (path : Text) (x : Except FileProblem α) : Except Fault α := do
  Path.check path
  match x with
  | .ok a => .ok a
  | .error problem => .error (.file problem path)

/-- The system with something put under some names. -/
def put (system : FileSystem) (names : List Text) (new : FileTree) : FileSystem :=
  { system with root := system.root.insert names new }

/-- The octets of a file. -/
def readFile (system : FileSystem) (path : Text) : Except Fault (List UInt8) :=
  atPath path do
    match ← system.entry path with
    | .file bytes => pure bytes
    | .dir _ => .error .isADirectory

/-- Where a file can be written.  A path that ends with a slash names a directory, whether there is
one or not. -/
def writePlace (system : FileSystem) (path : Text) : Except FileProblem (List Text) := do
  let parent ← system.locateParent path
  if Path.endsWithSlash path then .error .isADirectory
  else
    let names ← system.step parent ((Path.components path).getLast?.getD Path.here)
    match system.root.find? names with
    | some (.dir _) => .error .isADirectory
    | _ => pure names

/-- The system with a file of some octets; the file is made if it is missing. -/
def writeFile (system : FileSystem) (path : Text) (bytes : List UInt8) :
    Except Fault FileSystem :=
  (atPath path (system.writePlace path)).map fun names => system.put names (.file bytes)

/-- The system with a new directory. -/
def makeDirectory (system : FileSystem) (path : Text) : Except FileProblem FileSystem := do
  let names ← system.locate path
  match system.root.find? names with
  | some _ => .error .exists
  | none => pure (system.put names FileTree.emptyDir)

/-- The system with a directory that may be there already. -/
def ensureDirectory (system : FileSystem) (path : Text) : Except Fault FileSystem :=
  match atPath path (system.makeDirectory path) with
  | .ok system => .ok system
  | .error fault => if (system.directory? path).isSome then .ok system else .error fault

/-- The directory above a path and the component below it; slashes at the end do not count. -/
def above (path : Text) : Text × Text :=
  let parts := Path.split path
  if parts.2.isEmpty then Path.split parts.1 else parts

theorem above_length {path : Text} (h : (above path).2 ≠ []) :
    (above path).1.length < path.length := by
  unfold above at *
  have h1 := Path.split_length path
  have h2 := Path.split_length (Path.split path).1
  simp only at *
  split at h
  · rename_i he
    rw [if_pos he]
    have := List.length_pos_iff.2 h
    omega
  · rename_i he
    rw [if_neg he]
    have := List.length_pos_iff.2 h
    omega

/-- The system with a directory where the one above is there, and the fault if there is one. -/
def makeLast (system : FileSystem) (path : Text) : Except Fault Unit × FileSystem :=
  match system.ensureDirectory path with
  | .ok system => (.ok (), system)
  | .error fault => (.error fault, system)

/-- Whether making a directory failed for any other reason than that something stands there. -/
def isObstacle : Except Fault Unit → Bool
  | .ok _ => false
  | .error (.file .exists _) => false
  | .error _ => true

/-- The system with a directory and all those above it, and the fault that stopped it from being
made if there is one.  Where something else stands in the place of a directory above, it is left to
the directory itself to fail. -/
def makeDirectories (system : FileSystem) (path : Text) : Except Fault Unit × FileSystem :=
  if h : (above path).2 ≠ [] ∧ (above path).1 ≠ [] ∧ !system.hasEntry (above path).1 then
    have := above_length h.1
    let (outcome, system) := system.makeDirectories (above path).1
    if isObstacle outcome then (outcome, system)
    else if (above path).2 = Path.here then (.ok (), system)
    else system.makeLast path
  else system.makeLast path
termination_by path.length

/-! ### Comparing and building -/

/-- What stands in the directory of relative paths. -/
def workTree (system : FileSystem) : FileTree :=
  (system.root.find? system.directory).getD FileTree.emptyDir

/-- The files below the directory of relative paths that are not the same before. -/
def changes (before after : FileSystem) : List (Text × List UInt8) :=
  FileTree.changes before.workTree after.workTree

/-- A system with nothing but the directory of relative paths. -/
def fresh (directory : List Text) : FileSystem where
  root := FileTree.emptyDir.insert directory FileTree.emptyDir
  directory

/-- The system with a file and all the directories above it. -/
def addFile (path : Text) (bytes : List UInt8) (system : FileSystem) : FileSystem :=
  let directory := Path.dirname path
  let system := if directory.isEmpty then system else (system.makeDirectories directory).2
  match system.writeFile path bytes with
  | .ok system => system
  | .error _ => system

/-- The system with a directory and all those above it. -/
def addDirectory (path : Text) (system : FileSystem) : FileSystem :=
  (system.makeDirectories path).2

end FileSystem

end AvroJsonSchema
