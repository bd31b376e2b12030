/-!
# Texts as sequences of code points

A JSON text may name an unpaired surrogate by an escape, and such a code point has to survive
from the schema that is read to the document that is written.  A `String` cannot hold it, so a
text here is a list of code points, surrogates included.

* **`CodePoint`**: a number below 0x110000.
* **`Text`**: a list of code points; a string literal is read as one.
-/

namespace AvroJsonSchema

/-- A Unicode code point, surrogates included. -/
structure CodePoint where
  val : Nat
  isLt : val < 0x110000
deriving DecidableEq

/-- A sequence of code points. -/
abbrev Text := List CodePoint

namespace CodePoint

/-- The code point of a character. -/
def ofChar (c : Char) : CodePoint :=
  ⟨c.toNat, by
    have h := c.valid
    simp only [UInt32.isValidChar, Nat.isValidChar] at h
    have : c.toNat = c.val.toNat := rfl
    omega⟩

/-- The code point of a number; a number that is too large stands for the replacement mark. -/
def ofNat (n : Nat) : CodePoint :=
  if h : n < 0x110000 then ⟨n, h⟩ else ⟨0xFFFD, by decide⟩

/-- The code point that ends a line. -/
def lineFeed : CodePoint := ofNat 10

/-- Code points that no character stands for. -/
def isSurrogate (c : CodePoint) : Bool :=
  0xD800 ≤ c.val && c.val ≤ 0xDFFF

/-- The decimal digits of ASCII. -/
def isAsciiDigit (c : CodePoint) : Bool :=
  48 ≤ c.val && c.val ≤ 57

/-- The character of a code point; the replacement mark for a surrogate. -/
def toChar (c : CodePoint) : Char :=
  if c.isSurrogate then '\uFFFD' else Char.ofNat c.val

end CodePoint

namespace Text

/-- The text of a string. -/
def ofString (s : String) : Text :=
  s.toList.map CodePoint.ofChar

instance : Coe String Text := ⟨ofString⟩

/-- The string of a text, with the replacement mark for every surrogate. -/
def toString (t : Text) : String :=
  String.ofList (t.map CodePoint.toChar)

/-- The decimal digits of a number. -/
def ofNat (n : Nat) : Text :=
  (Nat.toDigits 10 n).map CodePoint.ofChar

/-- The decimal digits of an integer, with a sign if it is negative. -/
def ofInt : Int → Text
  | .ofNat n => ofNat n
  | .negSucc n => ofString "-" ++ ofNat (n + 1)

/-- The number that a row of ASCII digits writes. -/
def digitsValue (t : Text) : Nat :=
  t.foldl (fun n c => 10 * n + (c.val - 48)) 0

/-- The order by the first code point that differs; a beginning comes first. -/
def lt : Text → Text → Bool
  | [], [] => false
  | [], _ :: _ => true
  | _ :: _, [] => false
  | a :: s, b :: t => if a = b then lt s t else a.val < b.val

/-- The sorted list of some texts. -/
def sort (ts : List Text) : List Text :=
  ts.mergeSort (fun a b => !lt b a)

/-- Some texts one after the other, with a separator between two neighbours. -/
def join (separator : Text) : List Text → Text
  | [] => []
  | [t] => t
  | t :: u :: ts => t ++ separator ++ join separator (u :: ts)

/-- The parts of a text between the occurrences of a code point. -/
def splitAt (mark : CodePoint) : Text → List Text
  | [] => [[]]
  | c :: t =>
    if c = mark then [] :: splitAt mark t
    else
      match splitAt mark t with
      | [] => [[c]]
      | part :: parts => (c :: part) :: parts

/-- Whether a text opens with another; then the part after it. -/
def after? (opening : Text) : Text → Option Text
  | t =>
    match opening, t with
    | [], t => some t
    | _ :: _, [] => none
    | a :: opening, b :: t => if a = b then after? opening t else none

/-- Whether a text ends with another; then the part before it. -/
def before? (ending t : Text) : Option Text :=
  (after? ending.reverse t.reverse).map List.reverse

/-- The dot that separates the parts of a full name. -/
def dot : CodePoint := CodePoint.ofNat 46

/-- Whether a name holds a dot. -/
def isDotted (t : Text) : Bool :=
  t.contains dot

end Text

end AvroJsonSchema
