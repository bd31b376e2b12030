import AvroJsonSchema.Json.Basic

/-!
# Numerals of JSON texts

A numeral is a sign, digits without a needless zero in front, and perhaps a fraction and an
exponent.  Without fraction and exponent it is an integer of any size up to a limit of digits,
else a binary number.

* **`Numeral.take?`**: the longest numeral at the beginning of a text.
* **`Numeral.value`**: the number that a numeral stands for.
-/

namespace AvroJsonSchema

namespace Json

/-- The parts of a numeral. -/
structure Numeral where
  negative : Bool
  whole : Text
  /-- The digits after the point; none if there is no point. -/
  fraction : Text
  /-- The sign and the digits of the exponent. -/
  exponent : Option (Bool × Text)
deriving DecidableEq

namespace Numeral

/-- The digits at the beginning of a text, and the rest. -/
def takeDigits (s : Text) : Text × Text :=
  (s.takeWhile CodePoint.isAsciiDigit, s.dropWhile CodePoint.isAsciiDigit)

/-- The sign at the beginning of a text: whether it is a minus sign, and the rest. -/
def takeSign (s : Text) : Bool × Text :=
  match s with
  | [] => (false, [])
  | c :: r => if c.val = 45 then (true, r) else (false, s)

/-- The digits before the point: a zero alone, or digits that begin with another one. -/
def takeWhole? (s : Text) : Option (Text × Text) :=
  match s with
  | [] => none
  | c :: r =>
    if c.val = 48 then some ([c], r)
    else if c.isAsciiDigit then some (takeDigits s)
    else none

/-- A point with at least one digit after it. -/
def takeFraction (s : Text) : Text × Text :=
  match s with
  | c :: d :: r =>
    if c.val = 46 ∧ d.isAsciiDigit then takeDigits (d :: r) else ([], s)
  | _ => ([], s)

/-- The sign of an exponent, which may be a plus sign, and the rest. -/
def takeExponentSign (s : Text) : Bool × Text :=
  match s with
  | [] => (false, [])
  | c :: r => if c.val = 43 then (false, r) else takeSign s

/-- The letter of an exponent, perhaps a sign, and at least one digit. -/
def takeExponent (s : Text) : Option (Bool × Text) × Text :=
  match s with
  | [] => (none, [])
  | c :: r =>
    if c.val = 101 ∨ c.val = 69 then
      let signed := takeExponentSign r
      match takeDigits signed.2 with
      | ([], _) => (none, s)
      | (digits, rest) => (some (signed.1, digits), rest)
    else (none, s)

/-- The longest numeral at the beginning of a text, and the rest. -/
def take? (s : Text) : Option (Numeral × Text) :=
  let (negative, unsigned) := takeSign s
  (takeWhole? unsigned).map fun (whole, afterWhole) =>
    let (fraction, afterFraction) := takeFraction afterWhole
    let (exponent, rest) := takeExponent afterFraction
    (⟨negative, whole, fraction, exponent⟩, rest)

/-- Whether a numeral stands for an integer. -/
def isInteger (n : Numeral) : Bool :=
  n.fraction.isEmpty && n.exponent.isNone

/-- The most digits of an integer. -/
def digitLimit : Nat := 4300

/-- The exponent of ten of the last digit of the fraction. -/
def scale (n : Numeral) : Int :=
  let exponent : Int :=
    match n.exponent with
    | none => 0
    | some (true, digits) => -(Text.digitsValue digits : Int)
    | some (false, digits) => Text.digitsValue digits
  exponent - n.fraction.length

/-- The number of a numeral; the count of the digits of an integer that has too many. -/
def value (n : Numeral) : Except Nat Json :=
  if n.isInteger then
    if digitLimit < n.whole.length then .error n.whole.length
    else
      let size : Int := Text.digitsValue n.whole
      .ok (.int (if n.negative then -size else size))
  else
    .ok (.float (Binary64.ofDecimal n.negative (Text.digitsValue (n.whole ++ n.fraction)) n.scale))

theorem takeSign_length (s : Text) : (takeSign s).2.length ≤ s.length := by
  unfold takeSign
  split
  · simp
  · split <;> simp

theorem takeDigits_length (s : Text) : (takeDigits s).2.length ≤ s.length := by
  simpa [takeDigits] using (List.dropWhile_sublist (p := CodePoint.isAsciiDigit)).length_le

theorem takeWhole?_length {s w r : Text} (h : takeWhole? s = some (w, r)) :
    r.length < s.length := by
  unfold takeWhole? at h
  split at h
  · simp at h
  · rename_i c q
    split at h
    · simp only [Option.some.injEq, Prod.mk.injEq] at h
      simp [← h.2]
    · split at h
      · rename_i hd
        simp only [Option.some.injEq, takeDigits, Prod.mk.injEq] at h
        rw [← h.2, List.dropWhile_cons, if_pos hd]
        have := (List.dropWhile_sublist (l := q) (p := CodePoint.isAsciiDigit)).length_le
        simp only [List.length_cons]
        omega
      · simp at h

theorem takeFraction_length (s : Text) : (takeFraction s).2.length ≤ s.length := by
  unfold takeFraction
  split
  · rename_i c d r
    split
    · have := takeDigits_length (d :: r)
      simp only [List.length_cons] at *
      omega
    · simp
  · simp

theorem takeExponentSign_length (s : Text) : (takeExponentSign s).2.length ≤ s.length := by
  unfold takeExponentSign
  split
  · simp
  · split
    · simp
    · exact takeSign_length _

theorem takeExponent_length (s : Text) : (takeExponent s).2.length ≤ s.length := by
  unfold takeExponent
  split
  · simp
  · rename_i c r
    split
    · have hs := takeExponentSign_length r
      have hd := takeDigits_length (takeExponentSign r).2
      simp only
      split
      · simp
      · rename_i digits rest _ heq
        rw [heq] at hd
        simp only [List.length_cons] at *
        omega
    · simp

/-- What is left after a numeral is shorter than the text. -/
theorem take?_length {s r : Text} {n : Numeral} (h : take? s = some (n, r)) :
    r.length < s.length := by
  simp only [take?, Option.map_eq_some_iff, Prod.mk.injEq, Prod.exists] at h
  obtain ⟨w, q, hw, -, rfl⟩ := h
  have h1 := takeSign_length s
  have h2 := takeWhole?_length hw
  have h3 := takeFraction_length q
  have h4 := takeExponent_length (takeFraction q).2
  omega

end Numeral

end Json

end AvroJsonSchema
