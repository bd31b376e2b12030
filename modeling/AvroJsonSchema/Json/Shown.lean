import AvroJsonSchema.Json.Basic
import AvroJsonSchema.Number.Written
import AvroJsonSchema.Text.Quoted

/-!
# Values in messages

A message shows a value of a schema in its own notation: texts stand between quotes, the
constants are capitalised, and a number is written as in a document but for infinity and
not-a-number.

* **`Json.shown`**: a value with its texts between quotes.
* **`Json.bare`**: the same, but a value that is itself a text stands without quotes.
-/

namespace AvroJsonSchema

namespace Json

/-- Numbers in messages are positional from 10⁻⁴ to below 10¹⁶. -/
def messageNumberStyle : NumberStyle where
  leastPositional := -4
  greatestPositional := 15
  infinity := "inf"
  nan := "nan"

/-- A key as a message shows it. -/
def shownKey : Key → Text
  | .text t => t.quoted
  | .null => "None"
  | .bool true => "True"
  | .bool false => "False"
  | .int n => Text.ofInt n
  | .float x => messageNumberStyle.write x

mutual

/-- A value as a message shows it. -/
def shown : Json → Text
  | .null => "None"
  | .bool true => "True"
  | .bool false => "False"
  | .int n => Text.ofInt n
  | .float x => messageNumberStyle.write x
  | .str t => t.quoted
  | .arr items => Text.ofString "[" ++ shownItems items ++ Text.ofString "]"
  | .obj entries => Text.ofString "\x7b" ++ shownEntries entries ++ Text.ofString "\x7d"

/-- The items of a list with commas between them. -/
def shownItems : List Json → Text
  | [] => []
  | [j] => shown j
  | j :: i :: js => shown j ++ Text.ofString ", " ++ shownItems (i :: js)

/-- The entries of an object with commas between them. -/
def shownEntries : List (Key × Json) → Text
  | [] => []
  | [(k, j)] => shownKey k ++ Text.ofString ": " ++ shown j
  | (k, j) :: e :: es =>
    shownKey k ++ Text.ofString ": " ++ shown j ++ Text.ofString ", " ++ shownEntries (e :: es)

end

/-- A value as a message names it: a text stands without quotes. -/
def bare : Json → Text
  | .str t => t
  | j => j.shown

end Json

end AvroJsonSchema
