import AvroJsonSchema.Json.Basic
import AvroJsonSchema.Number.Written
import AvroJsonSchema.Text.Quoted

/-!
# Writing JSON texts

A tree is written on one line or with every entry on a line of its own.  The text is pure ASCII:
what lies outside the visible ASCII characters is written by its UTF-16 units in hexadecimal.

* **`Json.Layout`**: on one line (`Layout.line`) or indented by four (`Layout.block`).
* **`Json.write`**: the text of a tree.  **`Json.compact`**, **`Json.pretty`**: in each layout.
-/

namespace AvroJsonSchema

namespace Json

/-- Numbers are positional from 10⁻⁴ to below 10¹⁶. -/
def numberStyle : NumberStyle where
  leastPositional := -4
  greatestPositional := 15
  infinity := "Infinity"
  nan := "NaN"

/-- A UTF-16 unit as an escape. -/
def escapedUnit (n : Nat) : Text :=
  Text.ofString "\\u" ++ Text.hex 4 n

/-- A code point as it stands between the quotes of a JSON text. -/
def escaped (c : CodePoint) : Text :=
  match c.val with
  | 34 => "\\\""
  | 92 => "\\\\"
  | 10 => "\\n"
  | 13 => "\\r"
  | 9 => "\\t"
  | 12 => "\\f"
  | 8 => "\\b"
  | n =>
    if 32 ≤ n ∧ n ≤ 126 then [c]
    else if n < 0x10000 then escapedUnit n
    else
      escapedUnit (0xD800 + (n - 0x10000) / 0x400) ++ escapedUnit (0xDC00 + (n - 0x10000) % 0x400)

/-- A text between quotes. -/
def writeText (t : Text) : Text :=
  Text.ofString "\"" ++ t.flatMap escaped ++ Text.ofString "\""

/-- What stands for a key between the quotes: a key that is no text is written as the value. -/
def keyText : Key → Text
  | .text t => t
  | .null => "null"
  | .bool true => "true"
  | .bool false => "false"
  | .int n => Text.ofInt n
  | .float x => numberStyle.write x

/-- Where a tree is broken into lines. -/
structure Layout where
  /-- What stands between two entries, before a line break if there is one. -/
  separator : Text
  /-- The indentation of a level, if entries stand on lines of their own. -/
  indentation : Option Nat

namespace Layout

/-- All on one line. -/
def line : Layout where
  separator := ", "
  indentation := none

/-- Every entry on a line of its own, indented by four. -/
def block : Layout where
  separator := ","
  indentation := some 4

/-- What stands before an entry or a closing bracket at a depth. -/
def newline (layout : Layout) (depth : Nat) : Text :=
  match layout.indentation with
  | none => []
  | some width => CodePoint.lineFeed :: List.replicate (width * depth) (CodePoint.ofNat 32)

end Layout

mutual

/-- The text of a tree whose entries stand at a depth. -/
def write (layout : Layout) (depth : Nat) : Json → Text
  | .null => "null"
  | .bool true => "true"
  | .bool false => "false"
  | .int n => Text.ofInt n
  | .float x => numberStyle.write x
  | .str t => writeText t
  | .arr [] => "[]"
  | .arr (j :: js) =>
    Text.ofString "[" ++ writeItems layout (depth + 1) (j :: js) ++ layout.newline depth
      ++ Text.ofString "]"
  | .obj [] => "\x7b\x7d"
  | .obj (e :: es) =>
    Text.ofString "\x7b" ++ writeEntries layout (depth + 1) (e :: es) ++ layout.newline depth
      ++ Text.ofString "\x7d"

/-- The text of the items of a list. -/
def writeItems (layout : Layout) (depth : Nat) : List Json → Text
  | [] => []
  | [j] => layout.newline depth ++ write layout depth j
  | j :: i :: js =>
    layout.newline depth ++ write layout depth j ++ layout.separator
      ++ writeItems layout depth (i :: js)

/-- The text of the entries of an object. -/
def writeEntries (layout : Layout) (depth : Nat) : List (Key × Json) → Text
  | [] => []
  | [(k, j)] =>
    layout.newline depth ++ writeText (keyText k) ++ Text.ofString ": " ++ write layout depth j
  | (k, j) :: e :: es =>
    layout.newline depth ++ writeText (keyText k) ++ Text.ofString ": " ++ write layout depth j
      ++ layout.separator ++ writeEntries layout depth (e :: es)

end

/-- The text of a tree on one line. -/
def compact (j : Json) : Text :=
  write .line 0 j

/-- The text of a tree with every entry on a line of its own. -/
def pretty (j : Json) : Text :=
  write .block 0 j

end Json

end AvroJsonSchema
