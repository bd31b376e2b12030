import AvroJsonSchema.Number.Shortest
import AvroJsonSchema.Text.Basic

/-!
# How a binary number is written

* **`NumberStyle`**: where positional notation begins and ends and what infinity and not-a-number
  are called.
* **`NumberStyle.write`**: the text of a number.
-/

namespace AvroJsonSchema

/-- The decisions of a number format. -/
structure NumberStyle where
  /-- The least exponent of ten that is written positionally. -/
  leastPositional : Int
  /-- The greatest exponent of ten that is written positionally. -/
  greatestPositional : Int
  infinity : Text
  nan : Text

namespace NumberStyle

/-- A row of zeros. -/
def zeros (n : Nat) : Text :=
  List.replicate n (CodePoint.ofNat 48)

/-- Digits with a point after the first `whole` of them, and at least one digit on both sides. -/
def positional (digits : Text) (whole : Int) : Text :=
  if whole ≤ 0 then Text.ofString "0." ++ zeros (-whole).toNat ++ digits
  else
    let whole := whole.toNat
    if digits.length ≤ whole then
      digits ++ zeros (whole - digits.length) ++ Text.ofString ".0"
    else digits.take whole ++ Text.ofString "." ++ digits.drop whole

/-- Digits with a point after the first one, if there are more, and an exponent with a sign and at
least two digits. -/
def scientific (digits : Text) (exponent : Int) : Text :=
  let fraction := if digits.length ≤ 1 then [] else Text.ofString "." ++ digits.drop 1
  let size := Text.ofNat exponent.natAbs
  digits.take 1 ++ fraction ++ Text.ofString (if exponent < 0 then "e-" else "e+")
    ++ zeros (2 - size.length) ++ size

/-- The text of a decimal: positional where the style says so, else scientific. -/
def writeDecimal (style : NumberStyle) (d : Decimal) : Text :=
  let digits := Text.ofNat d.digits
  let exponent : Int := d.exponent + digits.length - 1
  if style.leastPositional ≤ exponent ∧ exponent ≤ style.greatestPositional then
    positional digits (exponent + 1)
  else scientific digits exponent

/-- The sign of a negative number. -/
def sign (negative : Bool) : Text :=
  if negative then Text.ofString "-" else []

/-- The text of a number. -/
def write (style : NumberStyle) : Binary64 → Text
  | .nan => style.nan
  | .infinity negative => sign negative ++ style.infinity
  | .finite negative mantissa exponent canonical =>
    if mantissa = 0 then sign negative ++ Text.ofString "0.0"
    else sign negative ++ style.writeDecimal (Binary64.shortest mantissa exponent canonical)

end NumberStyle

end AvroJsonSchema
