import AvroJsonSchema.Number.Binary64

/-!
# The shortest decimal that reads back

A finite number is written with the fewest decimal digits from which the same number is read
again; of several such decimals the nearest is taken, and of two equally near ones the one with
the even last digit.  For each count of digits only the two neighbours of the number on that
decimal grid can be nearest, so these two are tried, from one digit up to seventeen.

* **`Decimal`**: the value `digits * 10 ^ exponent`.
* **`Binary64.shortest`**: the shortest decimal of `mantissa * 2 ^ exponent`.
-/

namespace AvroJsonSchema

/-- The value `digits * 10 ^ exponent`. -/
structure Decimal where
  digits : Nat
  exponent : Int
deriving DecidableEq

namespace Decimal

/-- The same value without zeros at the end of the digits; `fuel` bounds how many are dropped. -/
def trim : (fuel : Nat) → Decimal → Decimal
  | 0, d => d
  | fuel + 1, d =>
    if d.digits ≠ 0 ∧ d.digits % 10 = 0 then trim fuel ⟨d.digits / 10, d.exponent + 1⟩ else d

end Decimal

namespace Binary64

/-- The value `mantissa * 2 ^ exponent` as a fraction. -/
def fraction (mantissa : Nat) (exponent : Int) : Nat × Nat :=
  match exponent with
  | .ofNat e => (mantissa * Nat.pow 2 e, 1)
  | .negSucc e => (mantissa, Nat.pow 2 (e + 1))

/-- The exponent of ten just above a fraction. -/
def decimalMagnitude (num den : Nat) : Int :=
  if den ≤ num then decimalLength (num / den) else 1 - (decimalLength (den / num) : Int)

/-- The quotient of `num / den` by a power of ten, as a fraction. -/
def scaledByTen (num den : Nat) (exponent : Int) : Nat × Nat :=
  match exponent with
  | .ofNat e => (num, den * Nat.pow 10 e)
  | .negSucc e => (num * Nat.pow 10 (e + 1), den)

/-- Whether the nearest number to a decimal is `x`. -/
def readsFrom (x : Binary64) (d : Decimal) : Bool :=
  ofDecimal false d.digits d.exponent = x

/-- The nearer of the two neighbours of `num / den` on the grid of an exponent of ten that read
back as `x`, if one does. -/
def neighbour? (x : Binary64) (num den : Nat) (exponent : Int) : Option Decimal :=
  let (n, d) := scaledByTen num den exponent
  let low : Decimal := ⟨n / d, exponent⟩
  let high : Decimal := ⟨n / d + 1, exponent⟩
  match x.readsFrom low, x.readsFrom high with
  | true, true => some (if divideToEven n d = n / d then low else high)
  | true, false => some low
  | false, true => some high
  | false, false => none

/-- The decimal that has all the digits of `mantissa * 2 ^ exponent`. -/
def exactDecimal (mantissa : Nat) (exponent : Int) : Decimal :=
  match exponent with
  | .ofNat e => ⟨mantissa * Nat.pow 2 e, 0⟩
  | .negSucc e => ⟨mantissa * Nat.pow 5 (e + 1), .negSucc e⟩

/-- The shortest decimal that reads back as the positive number `mantissa * 2 ^ exponent`. -/
def shortest (mantissa : Nat) (exponent : Int) (canonical : Canonical mantissa exponent) :
    Decimal :=
  let x := Binary64.finite false mantissa exponent canonical
  let (num, den) := fraction mantissa exponent
  let magnitude := decimalMagnitude num den
  let found := (List.range 17).findSome? fun count =>
    neighbour? x num den (magnitude - (count + 1 : Nat))
  (found.getD (exactDecimal mantissa exponent)).trim 400

end Binary64

end AvroJsonSchema
