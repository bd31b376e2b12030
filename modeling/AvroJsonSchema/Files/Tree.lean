import AvroJsonSchema.Files.Path
import AvroJsonSchema.Table

/-!
# File trees

Files with their octets, and directories with entries by name.

* **`FileTree`**: a file or a directory.
* **`FileTree.find?`**, **`FileTree.insert`**: what stands under some names.
* **`FileTree.walk`**: the files of a directory and below, in order.
* **`FileTree.changes`**: the files that are new or different.
-/

namespace AvroJsonSchema

/-- A file or a directory with its entries. -/
inductive FileTree where
  | file (bytes : List UInt8)
  | dir (entries : List (Text × FileTree))

namespace FileTree

/-- A directory without entries. -/
def emptyDir : FileTree := .dir []

/-- What stands under a name of a directory. -/
def child? (name : Text) : FileTree → Option FileTree
  | .file _ => none
  | .dir entries => Table.get? name entries

/-- What stands under some names, one below the other. -/
def find? : List Text → FileTree → Option FileTree
  | [], tree => some tree
  | name :: names, tree =>
    match tree.child? name with
    | some child => child.find? names
    | none => none

/-- Puts a tree under some names, making the directories that are missing. -/
def insert (tree : FileTree) (names : List Text) (new : FileTree) : FileTree :=
  match names, tree with
  | [], _ => new
  | name :: names, .dir entries =>
    .dir (Table.set name (((Table.get? name entries).getD emptyDir).insert names new) entries)
  | _ :: _, .file bytes => .file bytes

/-! ### Walking -/

/-- Whether a tree is a file. -/
def isFile : FileTree → Bool
  | .file _ => true
  | .dir _ => false

/-- Entries by their names. -/
def byName {α : Type} (entries : List (Text × α)) : List (Text × α) :=
  entries.mergeSort fun a b => !Text.lt b.1 a.1

mutual

/-- The files of a tree by their components, in each directory the files first and then the
directories, both sorted by name. -/
def walk : FileTree → List (List Text × List UInt8)
  | .file bytes => [([], bytes)]
  | .dir entries =>
    let parts := walkEntries entries
    (byName (parts.filter (·.2.1))).flatMap (·.2.2)
      ++ (byName (parts.filter (!·.2.1))).flatMap (·.2.2)

/-- For every entry of a directory its name, whether it is a file, and the files below. -/
def walkEntries :
    List (Text × FileTree) → List (Text × Bool × List (List Text × List UInt8))
  | [] => []
  | (name, tree) :: entries =>
    (name, tree.isFile, tree.walk.map fun e => (name :: e.1, e.2)) :: walkEntries entries

end

/-- The path of some components. -/
def pathText (components : List Text) : Text :=
  Text.join [Path.slash] components

/-- The files of a tree that are not the same in another one. -/
def changes (before after : FileTree) : List (Text × List UInt8) :=
  (after.walk.filter fun e => !unchanged e).map fun e => (pathText e.1, e.2)
where
  /-- Whether a file has been there before with the same octets. -/
  unchanged (e : List Text × List UInt8) : Bool :=
    match before.find? e.1 with
    | some (.file bytes) => bytes = e.2
    | _ => false

end FileTree

end AvroJsonSchema
