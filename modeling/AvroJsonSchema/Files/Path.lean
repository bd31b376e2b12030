import AvroJsonSchema.Fault

/-!
# Paths

A path is a text with slashes between its components.  The rules here look at the text alone;
whether anything stands where a path leads is a question for the tree.

* **`Path.components`**: the components of a path, the empty ones left out.
* **`Path.follow`**: where a component leads.  **`Path.places`**: where a path passes through.
* **`Path.split`**: the directory and the last component.  **`Path.dirname`**: the directory.
* **`Path.join`**: a path within a directory.  **`Path.below`**: one name after the other.
* **`Path.check`**: whether a path can name a file at all.
-/

namespace AvroJsonSchema

namespace Path

/-- The slash. -/
def slash : CodePoint := CodePoint.ofNat 47

/-- The component that stays in a directory. -/
def here : Text := "."

/-- The component that goes up. -/
def up : Text := ".."

/-- The components of a path. -/
def components (path : Text) : List Text :=
  (path.splitAt slash).filter (!·.isEmpty)

/-- Whether a path begins at the root of all files. -/
def isAbsolute (path : Text) : Bool :=
  path.head? = some slash

/-- Whether a path ends with a slash and so has to name a directory. -/
def endsWithSlash (path : Text) : Bool :=
  path.getLast? = some slash

/-- A path without the slashes at its end; slashes alone are kept. -/
def trimSlashes (path : Text) : Text :=
  let kept := (path.reverse.dropWhile (· = slash)).reverse
  if kept.isEmpty then path else kept

/-- The part of a path up to its last slash, without slashes at its end, and the part after it. -/
def split (path : Text) : Text × Text :=
  let last := (path.reverse.takeWhile (· ≠ slash)).reverse
  (trimSlashes (path.take (path.length - last.length)), last)

/-- The directory that a path stands in; empty for a path of one component. -/
def dirname (path : Text) : Text :=
  (split path).1

/-- The name that a component stands for: the text of its octets. -/
def nameOf (component : Text) : Text :=
  Utf8.decodeKeeping (Utf8.encodeKeeping component)

/-- Where a component leads from a place that is told by its names from the root. -/
def follow (names : List Text) (component : Text) : List Text :=
  if component = here then names
  else if component = up then names.dropLast
  else names ++ [nameOf component]

/-- The places that some components lead through, the first and the last one too. -/
def places (names : List Text) : List Text → List (List Text)
  | [] => [names]
  | component :: rest => names :: places (follow names component) rest

/-- A path within a directory; an absolute path stays as it is. -/
def join (directory path : Text) : Text :=
  if isAbsolute path then path
  else if directory.isEmpty || endsWithSlash directory then directory ++ path
  else directory ++ slash :: path

/-- The path of some names below another path, one after the other. -/
def below (path : Text) (names : List Text) : Text :=
  names.foldl join path

/-- The most octets of a component. -/
def componentLimit : Nat := 255

/-- The most octets of a path. -/
def pathLimit : Nat := 4095

/-- How many octets a text takes. -/
def octetCount (t : Text) : Nat :=
  (Utf8.encodeKeeping t).length

/-- Surrogates that keep no octet. -/
def isUnencodable (c : CodePoint) : Bool :=
  c.isSurrogate && !Utf8.isKept c

/-- The first surrogate that a path cannot hold, with the surrogates of any kind behind it. -/
def encodeFault? (path : Text) : Option Utf8.EncodeFault :=
  let rest := path.dropWhile (!isUnencodable ·)
  match rest with
  | [] => none
  | c :: _ =>
    some ⟨c, path.length - rest.length, (rest.takeWhile CodePoint.isSurrogate).length⟩

/-- A path holds neither such a surrogate nor the code point zero. -/
def check (path : Text) : Except Fault Unit :=
  match encodeFault? path with
  | some fault => .error (.unencodable fault)
  | none => if path.any (·.val = 0) then .error .zeroInPath else .ok ()

theorem trimSlashes_length (path : Text) : (trimSlashes path).length ≤ path.length := by
  unfold trimSlashes
  have h := (List.dropWhile_sublist (l := path.reverse) (p := (· = slash))).length_le
  simp only [List.length_reverse] at h
  simp only
  split
  · simp
  · simpa using h

theorem split_length (path : Text) :
    (split path).1.length + (split path).2.length ≤ path.length := by
  have h := (List.takeWhile_sublist (l := path.reverse) (p := (· ≠ slash))).length_le
  have ht := trimSlashes_length
    (path.take (path.length - ((path.reverse.takeWhile (· ≠ slash)).reverse).length))
  simp only [split, List.length_take, List.length_reverse] at *
  omega

end Path

end AvroJsonSchema
