import AvroJsonSchema.Text.Visible

/-!
# Quoted texts

A message shows a text between quotes.  Single quotes are used unless the text holds a single
quote and no double one.  Inside, the backslash and the quote in use are written after a
backslash, line feed, carriage return and tab by their letters, and what has no visible form by
its number in hexadecimal.

* **`Text.hex`**: a number with a fixed count of hexadecimal digits.
* **`Text.quoted`**: a text between quotes.
-/

namespace AvroJsonSchema

namespace Text

/-- The digit of a value below sixteen. -/
def hexDigit (n : Nat) : CodePoint :=
  CodePoint.ofNat (if n < 10 then 48 + n else 87 + n)

/-- The last `width` hexadecimal digits of a number. -/
def hex : (width n : Nat) → Text
  | 0, _ => []
  | width + 1, n => hex width (n / 16) ++ [hexDigit (n % 16)]

/-- A code point by its number, with as many digits as its size asks for. -/
def numbered (c : CodePoint) : Text :=
  if c.val < 0x100 then ofString "\\x" ++ hex 2 c.val
  else if c.val < 0x10000 then ofString "\\u" ++ hex 4 c.val
  else ofString "\\U" ++ hex 8 c.val

/-- A code point between two quotes of a kind. -/
def quotedPoint (quote c : CodePoint) : Text :=
  if c = quote ∨ c.val = 92 then [CodePoint.ofNat 92, c]
  else if c.val = 10 then ofString "\\n"
  else if c.val = 13 then ofString "\\r"
  else if c.val = 9 then ofString "\\t"
  else if c.isVisible then [c]
  else numbered c

/-- The single quote. -/
def singleQuote : CodePoint := CodePoint.ofNat 39

/-- The double quote. -/
def doubleQuote : CodePoint := CodePoint.ofNat 34

/-- The quote that is put around a text. -/
def quoteFor (t : Text) : CodePoint :=
  if t.contains singleQuote && !t.contains doubleQuote then doubleQuote else singleQuote

/-- A text between quotes, as a message shows it. -/
def quoted (t : Text) : Text :=
  let quote := quoteFor t
  quote :: t.flatMap (quotedPoint quote) ++ [quote]

end Text

end AvroJsonSchema
