/-!
# Numbers with 53 binary digits

A JSON number with a fraction or an exponent is a 64-bit binary number.  It is kept exactly, as a
mantissa and a power of two, so that reading, comparing and writing it are integer arithmetic.

* **`Binary64`**: a finite number in its one canonical form, an infinity, or not a number.
* **`Binary64.round`**: the number nearest to a fraction, ties to the even mantissa; what is too
  large becomes an infinity.
* **`Binary64.ofDecimal`**: the number nearest to `digits * 10 ^ exponent`.
* **`Binary64.same`**: equality of values, where zero has no sign and not-a-number equals itself.
-/

namespace AvroJsonSchema

/-- A mantissa and an exponent in canonical form: either all 53 digits are in use or the exponent
is the least one. -/
def Canonical (mantissa : Nat) (exponent : Int) : Prop :=
  mantissa < Nat.pow 2 53 ∧ -1074 ≤ exponent ∧ exponent ≤ 971
    ∧ (Nat.pow 2 52 ≤ mantissa ∨ exponent = -1074)

instance (mantissa : Nat) (exponent : Int) : Decidable (Canonical mantissa exponent) :=
  inferInstanceAs (Decidable (_ ∧ _ ∧ _ ∧ (_ ∨ _)))

/-- A 64-bit binary number. -/
inductive Binary64 where
  /-- The number `mantissa * 2 ^ exponent`, or its opposite. -/
  | finite (negative : Bool) (mantissa : Nat) (exponent : Int)
      (canonical : Canonical mantissa exponent)
  | infinity (negative : Bool)
  | nan
deriving DecidableEq

namespace Binary64

/-- Zero with a sign. -/
def zero (negative : Bool) : Binary64 :=
  .finite negative 0 (-1074) (by decide)

/-- The quotient of two numbers as a whole number, a half going to the even neighbour. -/
def divideToEven (num den : Nat) : Nat :=
  let q := num / den
  let twice := 2 * (num % den)
  if twice < den then q
  else if den < twice then q + 1
  else if q % 2 = 0 then q else q + 1

/-- The quotient of `num / den` by a power of two, as a fraction. -/
def scaled (num den : Nat) (exponent : Int) : Nat × Nat :=
  match exponent with
  | .ofNat e => (num, den * Nat.pow 2 e)
  | .negSucc e => (num * Nat.pow 2 (e + 1), den)

/-- The exponent at which a positive fraction has 53 digits before the point, and no less than the
least exponent. -/
def exponentFor (num den : Nat) : Int :=
  let guess : Int := (Nat.log2 num : Int) - (Nat.log2 den : Int) - 52
  let (n, d) := scaled num den guess
  max (-1074) (if n < d * Nat.pow 2 52 then guess - 1 else guess)

/-- The number of a mantissa of at most 53 digits at an exponent, an infinity if it is too
large. -/
def pack (negative : Bool) (mantissa : Nat) (exponent : Int) : Binary64 :=
  if h : Canonical mantissa exponent then .finite negative mantissa exponent h
  else if h : Canonical (mantissa / 2) (exponent + 1) then
    .finite negative (mantissa / 2) (exponent + 1) h
  else .infinity negative

/-- The number nearest to the fraction `num / den`. -/
def round (negative : Bool) (num den : Nat) : Binary64 :=
  if num = 0 then zero negative
  else
    let exponent := exponentFor num den
    let (n, d) := scaled num den exponent
    pack negative (divideToEven n d) exponent

/-- How many decimal digits a number has; none for zero. -/
def decimalLength (n : Nat) : Nat :=
  if n = 0 then 0 else (Nat.toDigits 10 n).length

/-- The number nearest to `digits * 10 ^ exponent`.  The first digit decides at once for a number
that is beyond every finite one or below half the least one, so that no large power is formed. -/
def ofDecimal (negative : Bool) (digits : Nat) (exponent : Int) : Binary64 :=
  let magnitude : Int := decimalLength digits + exponent
  if digits = 0 then zero negative
  else if 310 < magnitude then .infinity negative
  else if magnitude < -330 then zero negative
  else
    match exponent with
    | .ofNat e => round negative (digits * Nat.pow 10 e) 1
    | .negSucc e => round negative digits (Nat.pow 10 (e + 1))

/-- Whether a number is the zero of some sign. -/
def isZero : Binary64 → Bool
  | .finite _ mantissa _ _ => mantissa = 0
  | _ => false

/-- Whether two numbers have the same value: zero has no sign, not-a-number equals itself. -/
def same (x y : Binary64) : Bool :=
  x = y || (x.isZero && y.isZero)

/-- Whether `mantissa * 2 ^ exponent` is an integer `n`. -/
def scaledIs (mantissa : Int) (exponent n : Int) : Bool :=
  match exponent with
  | .ofNat e => mantissa * (Nat.pow 2 e : Nat) = n
  | .negSucc e => mantissa = n * (Nat.pow 2 (e + 1) : Nat)

/-- Whether a number has the value of an integer. -/
def sameInt (x : Binary64) (n : Int) : Bool :=
  match x with
  | .finite negative mantissa exponent _ =>
    scaledIs (if negative then -(mantissa : Int) else mantissa) exponent n
  | _ => false

end Binary64

end AvroJsonSchema
