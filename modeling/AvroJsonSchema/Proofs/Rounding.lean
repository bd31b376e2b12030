import Mathlib.Data.Int.Log
import Mathlib.Data.Rat.Floor
import Mathlib.Tactic.FieldSimp
import Mathlib.Tactic.Linarith
import Mathlib.Tactic.NormNum
import Mathlib.Tactic.Ring
import AvroJsonSchema.Number.Shortest

/-!
# Rounding decimals to binary numbers

The number nearest to a fraction depends on the value of the fraction alone, so a common factor of
numerator and denominator makes no difference, and neither does a zero at the end of the digits of a
decimal.  A finite number is the nearest one to itself.  So the shortest decimal of a number, which
was either tried or has all digits, and has lost its zeros since, is rounded to that number.

* **`Binary64.exponentFor_eq`**: the exponent of a fraction is told by the logarithm of its value.
* **`Binary64.round_scale`**: a common factor makes no difference.
* **`Binary64.ofDecimal_shift`**: a zero at the end of the digits makes none.
* **`Binary64.round_fraction`**: a finite number is rounded to itself.
* **`Binary64.ofDecimal_shortest`**: the shortest decimal of a number is rounded to it.
-/

namespace AvroJsonSchema

namespace Binary64

/-! ### The exponent of a fraction -/

section Fraction

variable {num den : Nat}

/-- Scaling by a power of two divides the value by it. -/
theorem scaled_value (hd : 0 < den) (e : Int) :
    0 < (scaled num den e).2 ∧
      ((scaled num den e).1 : ℚ) = (num : ℚ) / den * (2 : ℚ) ^ (-e) * (scaled num den e).2 := by
  have hden : (den : ℚ) ≠ 0 := Nat.cast_ne_zero.2 (Nat.pos_iff_ne_zero.1 hd)
  cases e with
  | ofNat k =>
    have hpow : 0 < Nat.pow 2 k := Nat.pow_pos (by decide)
    refine ⟨Nat.mul_pos hd hpow, ?_⟩
    show (num : ℚ) = num / den * (2 : ℚ) ^ (-(k : Int)) * ((den * Nat.pow 2 k : Nat) : ℚ)
    have hcast : ((den * Nat.pow 2 k : Nat) : ℚ) = den * 2 ^ k := by
      rw [Nat.pow_eq]
      push_cast
      rfl
    rw [hcast, zpow_neg, zpow_natCast]
    field_simp
  | negSucc k =>
    refine ⟨hd, ?_⟩
    show ((num * Nat.pow 2 (k + 1) : Nat) : ℚ) = num / den * (2 : ℚ) ^ (-Int.negSucc k) * den
    have hcast : ((num * Nat.pow 2 (k + 1) : Nat) : ℚ) = num * 2 ^ (k + 1) := by
      rw [Nat.pow_eq]
      push_cast
      rfl
    rw [hcast, Int.neg_negSucc, zpow_natCast]
    field_simp

/-- What is scaled is less than a power of two if the value is less than that power. -/
theorem scaled_lt_iff (hd : 0 < den) (e : Int) (k : Nat) :
    (scaled num den e).1 < (scaled num den e).2 * Nat.pow 2 k ↔
      (num : ℚ) / den < (2 : ℚ) ^ (e + k) := by
  obtain ⟨hpos, hvalue⟩ := @scaled_value num den hd e
  have hpos' : (0 : ℚ) < (scaled num den e).2 := Nat.cast_pos.2 hpos
  have htwo : (0 : ℚ) < 2 ^ e := zpow_pos (by norm_num) e
  have hcast : ((Nat.pow 2 k : Nat) : ℚ) = 2 ^ (k : Int) := by
    rw [Nat.pow_eq, zpow_natCast]
    push_cast
    rfl
  rw [← Nat.cast_lt (α := ℚ), hvalue, Nat.cast_mul, hcast, mul_comm, zpow_neg,
    mul_lt_mul_iff_of_pos_left hpos', ← div_eq_mul_inv, div_lt_iff₀ htwo,
    zpow_add₀ (by norm_num : (2 : ℚ) ≠ 0), mul_comm (2 ^ e : ℚ)]

theorem log2_bounds {n : Nat} (hn : 0 < n) :
    (2 : ℚ) ^ (Nat.log2 n : Int) ≤ n ∧ (n : ℚ) < (2 : ℚ) ^ ((Nat.log2 n : Int) + 1) := by
  constructor
  · rw [zpow_natCast]
    exact_mod_cast Nat.log2_self_le (Nat.pos_iff_ne_zero.1 hn)
  · exact_mod_cast Nat.lt_log2_self (n := n)

/-- The logarithms of numerator and denominator tell the one of the fraction, but for one. -/
theorem log_fraction_bounds (hn : 0 < num) (hd : 0 < den) :
    (Nat.log2 num : Int) - Nat.log2 den - 1 ≤ Int.log 2 ((num : ℚ) / den) ∧
      Int.log 2 ((num : ℚ) / den) ≤ (Nat.log2 num : Int) - Nat.log2 den := by
  have htwo : (2 : ℚ) ≠ 0 := by norm_num
  have hd' : (0 : ℚ) < den := Nat.cast_pos.2 hd
  have hvalue : (0 : ℚ) < num / den := div_pos (Nat.cast_pos.2 hn) hd'
  obtain ⟨hnum, hnum'⟩ := log2_bounds hn
  obtain ⟨hden, hden'⟩ := log2_bounds hd
  constructor
  · refine (Int.zpow_le_iff_le_log (by decide) hvalue).1 ?_
    calc (2 : ℚ) ^ ((Nat.log2 num : Int) - Nat.log2 den - 1)
        = 2 ^ (Nat.log2 num : Int) / 2 ^ ((Nat.log2 den : Int) + 1) := by
          rw [← zpow_sub₀ htwo, sub_sub]
      _ ≤ num / den := div_le_div₀ (Nat.cast_nonneg _) hnum hd' (le_of_lt hden')
  · refine Int.lt_add_one_iff.1 ((Int.lt_zpow_iff_log_lt (by decide) hvalue).1 ?_)
    calc (num : ℚ) / den < 2 ^ ((Nat.log2 num : Int) + 1) / 2 ^ (Nat.log2 den : Int) :=
          div_lt_div₀ hnum' hden (le_of_lt (lt_trans (Nat.cast_pos.2 hn) hnum')) (zpow_pos (by norm_num) _)
      _ = 2 ^ ((Nat.log2 num : Int) - Nat.log2 den + 1) := by
          rw [← zpow_sub₀ htwo, add_sub_right_comm]

/-- **The exponent of a fraction is told by the logarithm of its value.** -/
theorem exponentFor_eq (hn : 0 < num) (hd : 0 < den) :
    exponentFor num den = max (-1074) (Int.log 2 ((num : ℚ) / den) - 52) := by
  have hvalue : (0 : ℚ) < num / den := div_pos (Nat.cast_pos.2 hn) (Nat.cast_pos.2 hd)
  obtain ⟨hlow, hhigh⟩ := log_fraction_bounds hn hd
  -- the comparison with 52 more bits tells which of the two it is
  have hguess : (scaled num den ((Nat.log2 num : Int) - Nat.log2 den - 52)).1 <
        (scaled num den ((Nat.log2 num : Int) - Nat.log2 den - 52)).2 * Nat.pow 2 52 ↔
      Int.log 2 ((num : ℚ) / den) < (Nat.log2 num : Int) - Nat.log2 den := by
    rw [scaled_lt_iff hd, Nat.cast_ofNat, sub_add_cancel]
    exact_mod_cast Int.lt_zpow_iff_log_lt (by decide : 1 < 2) hvalue
  rw [exponentFor]
  dsimp only
  split
  · rename_i h
    have := hguess.1 h
    omega
  · rename_i h
    have := mt hguess.2 h
    omega

theorem divideToEven_scale {c : Nat} (hc : 0 < c) (num den : Nat) :
    divideToEven (c * num) (c * den) = divideToEven num den := by
  have htwice : 2 * (c * (num % den)) = c * (2 * (num % den)) := by ring
  simp only [divideToEven, Nat.mul_div_mul_left _ _ hc, Nat.mul_mod_mul_left, htwice,
    Nat.mul_lt_mul_left hc]

theorem scaled_scale (c num den : Nat) (e : Int) :
    scaled (c * num) (c * den) e = (c * (scaled num den e).1, c * (scaled num den e).2) := by
  cases e with
  | ofNat k => exact Prod.ext rfl (Nat.mul_assoc _ _ _)
  | negSucc k => exact Prod.ext (Nat.mul_assoc _ _ _) rfl

theorem round_zero (negative : Bool) (den : Nat) : round negative 0 den = zero negative :=
  if_pos rfl

/-- The exponent has a name here, or checking the step would compute it. -/
theorem round_of_ne (negative : Bool) (hn : num ≠ 0) {exponent : Int}
    (he : exponentFor num den = exponent) :
    round negative num den = pack negative
      (divideToEven (scaled num den exponent).1 (scaled num den exponent).2) exponent := by
  unfold round
  rw [he, if_neg hn]

/-- **A common factor of a fraction makes no difference.** -/
theorem round_scale {c : Nat} (hc : 0 < c) (negative : Bool) (num : Nat) (hd : 0 < den) :
    round negative (c * num) (c * den) = round negative num den := by
  rcases Nat.eq_zero_or_pos num with rfl | hn
  · rw [Nat.mul_zero, round_zero, round_zero]
  have hne : num ≠ 0 := Nat.pos_iff_ne_zero.1 hn
  have hne' : c * num ≠ 0 := Nat.mul_ne_zero (Nat.pos_iff_ne_zero.1 hc) hne
  have hvalue : ((c * num : Nat) : ℚ) / (c * den : Nat) = num / den := by
    rw [Nat.cast_mul, Nat.cast_mul]
    exact mul_div_mul_left _ _ (Nat.cast_ne_zero.2 (Nat.pos_iff_ne_zero.1 hc))
  have hexponent : exponentFor (c * num) (c * den) = exponentFor num den := by
    rw [exponentFor_eq (Nat.mul_pos hc hn) (Nat.mul_pos hc hd), exponentFor_eq hn hd, hvalue]
  rw [round_of_ne negative hne rfl, round_of_ne negative hne' hexponent, scaled_scale,
    divideToEven_scale hc]

end Fraction

/-! ### Decimals -/

theorem decimalLength_le_iff {n k : Nat} (hn : n ≠ 0) (hk : 0 < k) :
    decimalLength n ≤ k ↔ n < 10 ^ k := by
  rw [decimalLength, if_neg hn]
  exact Nat.length_toDigits_le_iff (by decide : 1 < 10) hk

theorem decimalLength_mul_ten {n : Nat} (hn : n ≠ 0) :
    decimalLength (10 * n) = decimalLength n + 1 := by
  have hdigits : Nat.toDigits 10 (10 * n) = Nat.toDigits 10 n ++ Nat.toDigits 10 0 :=
    (Nat.toDigits_append_toDigits (by decide : 1 < 10) (Nat.pos_iff_ne_zero.2 hn)
      (by decide : 0 < 10)).symm
  rw [decimalLength, decimalLength, if_neg hn, if_neg (by omega), hdigits, List.length_append]
  rfl

/-- The value `digits * 10 ^ exponent` as a fraction. -/
def decimalFraction (digits : Nat) (exponent : Int) : Nat × Nat :=
  match exponent with
  | .ofNat e => (digits * Nat.pow 10 e, 1)
  | .negSucc e => (digits, Nat.pow 10 (e + 1))

theorem ofDecimal_zero (negative : Bool) (e : Int) : ofDecimal negative 0 e = zero negative := by
  unfold ofDecimal
  rw [if_pos rfl]

theorem ofDecimal_of_ne (negative : Bool) {digits : Nat} (hd : digits ≠ 0) (e : Int) :
    ofDecimal negative digits e =
      if 310 < (decimalLength digits : Int) + e then .infinity negative
      else if (decimalLength digits : Int) + e < -330 then zero negative
      else round negative (decimalFraction digits e).1 (decimalFraction digits e).2 := by
  unfold ofDecimal
  rw [if_neg hd]
  cases e <;> rfl

theorem decimalFraction_den_pos (digits : Nat) (e : Int) : 0 < (decimalFraction digits e).2 := by
  cases e with
  | ofNat k => exact Nat.one_pos
  | negSucc k => exact Nat.pow_pos (by decide)

/-- A zero at the end of the digits is a factor of the fraction, or none at all. -/
theorem decimalFraction_shift (digits : Nat) (e : Int) :
    decimalFraction (10 * digits) e = decimalFraction digits (e + 1) ∨
      decimalFraction (10 * digits) e =
        (10 * (decimalFraction digits (e + 1)).1, 10 * (decimalFraction digits (e + 1)).2) := by
  have hpow : ∀ k, Nat.pow 10 (k + 1) = 10 * Nat.pow 10 k := fun k => by
    rw [Nat.pow_eq, Nat.pow_eq, pow_succ, Nat.mul_comm]
  rcases e with k | _ | k
  · refine .inl (Prod.ext ?_ rfl)
    show 10 * digits * Nat.pow 10 k = digits * Nat.pow 10 (k + 1)
    rw [hpow, Nat.mul_comm 10 digits, Nat.mul_assoc]
  · refine .inr (Prod.ext ?_ rfl)
    show 10 * digits = 10 * (digits * 1)
    rw [Nat.mul_one]
  · refine .inr (Prod.ext rfl ?_)
    exact hpow (k + 1)

/-- **A zero at the end of the digits makes no difference.** -/
theorem ofDecimal_shift (negative : Bool) {digits : Nat} (hd : digits ≠ 0) (e : Int) :
    ofDecimal negative (10 * digits) e = ofDecimal negative digits (e + 1) := by
  have hmagnitude : (decimalLength (10 * digits) : Int) + e = decimalLength digits + (e + 1) := by
    rw [decimalLength_mul_ten hd]
    push_cast
    ring
  have hround : round negative (decimalFraction (10 * digits) e).1
        (decimalFraction (10 * digits) e).2 =
      round negative (decimalFraction digits (e + 1)).1 (decimalFraction digits (e + 1)).2 := by
    rcases decimalFraction_shift digits e with h | h
    · rw [h]
    · rw [h, round_scale (by decide) negative _ (decimalFraction_den_pos digits (e + 1))]
  rw [ofDecimal_of_ne negative hd, ofDecimal_of_ne negative (by omega), hmagnitude, hround]

theorem ofDecimal_shift_pow (negative : Bool) {digits : Nat} (hd : digits ≠ 0) (k : Nat) (e : Int) :
    ofDecimal negative (digits * 10 ^ k) e = ofDecimal negative digits (e + k) := by
  induction k generalizing e with
  | zero => rw [pow_zero, Nat.mul_one, Nat.cast_zero, add_zero]
  | succ k ih =>
    have hne : digits * 10 ^ k ≠ 0 := Nat.mul_ne_zero hd (Nat.pos_iff_ne_zero.1 (by positivity))
    have hdigits : digits * 10 ^ (k + 1) = 10 * (digits * 10 ^ k) := by ring
    rw [hdigits, ofDecimal_shift negative hne, ih]
    congr 1
    push_cast
    ring

/-- The sign of a decimal is the sign of the number. -/
theorem ofDecimal_of_positive {digits : Nat} {e : Int} {mantissa : Nat} {exponent : Int}
    {canonical : Canonical mantissa exponent}
    (h : ofDecimal false digits e = .finite false mantissa exponent canonical) (negative : Bool) :
    ofDecimal negative digits e = .finite negative mantissa exponent canonical := by
  have hzero : zero false = .finite false mantissa exponent canonical →
      zero negative = .finite negative mantissa exponent canonical := by
    intro h
    cases h
    rfl
  have hround : ∀ num den, round false num den = .finite false mantissa exponent canonical →
      round negative num den = .finite negative mantissa exponent canonical := by
    intro num den h
    rcases eq_or_ne num 0 with rfl | hn
    · rw [round_zero] at h ⊢
      exact hzero h
    · rw [round_of_ne _ hn rfl, pack] at h ⊢
      split at h
      · rw [dif_pos ‹_›]
        cases h
        rfl
      · split at h
        · rw [dif_neg ‹_›, dif_pos ‹_›]
          cases h
          rfl
        · cases h
  rcases eq_or_ne digits 0 with rfl | hd
  · rw [ofDecimal_zero] at h ⊢
    exact hzero h
  · rw [ofDecimal_of_ne _ hd] at h ⊢
    split at h
    · cases h
    rw [if_neg ‹_›]
    split at h
    · rw [if_pos ‹_›]
      exact hzero h
    · rw [if_neg ‹_›]
      exact hround _ _ h

/-! ### Numbers themselves -/

theorem divideToEven_mul {m d : Nat} (hd : 0 < d) : divideToEven (m * d) d = m := by
  simp only [divideToEven, Nat.mul_div_cancel m hd, Nat.mul_mod_left, Nat.mul_zero, if_pos hd]

section Canonical

variable {mantissa : Nat} {exponent : Int}

theorem fraction_value (mantissa : Nat) (exponent : Int) :
    0 < (fraction mantissa exponent).2 ∧
      ((fraction mantissa exponent).1 : ℚ) / (fraction mantissa exponent).2 =
        mantissa * (2 : ℚ) ^ exponent := by
  cases exponent with
  | ofNat k =>
    refine ⟨Nat.one_pos, ?_⟩
    show ((mantissa * Nat.pow 2 k : Nat) : ℚ) / (1 : Nat) = mantissa * (2 : ℚ) ^ (k : Int)
    rw [Nat.pow_eq, zpow_natCast]
    push_cast
    ring
  | negSucc k =>
    refine ⟨Nat.pow_pos (by decide), ?_⟩
    show (mantissa : ℚ) / (Nat.pow 2 (k + 1) : Nat) = mantissa * (2 : ℚ) ^ (Int.negSucc k)
    rw [Nat.pow_eq, zpow_negSucc, div_eq_mul_inv]
    push_cast
    rfl

theorem scaled_fraction (mantissa : Nat) (exponent : Int) :
    ∃ d, 0 < d ∧ scaled (fraction mantissa exponent).1 (fraction mantissa exponent).2 exponent =
      (mantissa * d, d) := by
  have hpow : ∀ k, 0 < Nat.pow 2 k := fun k => Nat.pow_pos (by decide)
  cases exponent with
  | ofNat k => exact ⟨1 * Nat.pow 2 k, Nat.mul_pos Nat.one_pos (hpow k), by
      show (mantissa * Nat.pow 2 k, 1 * Nat.pow 2 k) = _
      rw [Nat.one_mul]⟩
  | negSucc k => exact ⟨Nat.pow 2 (k + 1), hpow _, rfl⟩

/-- The exponent of a number in canonical form is the one that its value has. -/
theorem exponentFor_fraction (canonical : Canonical mantissa exponent) (hm : mantissa ≠ 0) :
    exponentFor (fraction mantissa exponent).1 (fraction mantissa exponent).2 = exponent := by
  obtain ⟨hlt, hleast, -, hform⟩ := canonical
  obtain ⟨hd, hvalue⟩ := fraction_value mantissa exponent
  have hm' : (0 : ℚ) < mantissa := Nat.cast_pos.2 (Nat.pos_iff_ne_zero.2 hm)
  have hpos : (0 : ℚ) < mantissa * (2 : ℚ) ^ exponent := mul_pos hm' (zpow_pos (by norm_num) _)
  have hn : 0 < (fraction mantissa exponent).1 := by
    rw [← hvalue] at hpos
    by_contra h
    rw [Nat.eq_zero_of_not_pos h, Nat.cast_zero, zero_div] at hpos
    exact lt_irrefl _ hpos
  have hhigh : Int.log 2 ((mantissa : ℚ) * (2 : ℚ) ^ exponent) < 53 + exponent := by
    refine (Int.lt_zpow_iff_log_lt (by decide) hpos).1 ?_
    rw [zpow_add₀ (by norm_num)]
    refine mul_lt_mul_of_pos_right ?_ (zpow_pos (by norm_num) _)
    exact_mod_cast hlt
  rw [exponentFor_eq hn hd, hvalue]
  rcases hform with hnormal | hsubnormal
  · have hlow : 52 + exponent ≤ Int.log 2 ((mantissa : ℚ) * (2 : ℚ) ^ exponent) := by
      refine (Int.zpow_le_iff_le_log (by decide) hpos).1 ?_
      rw [zpow_add₀ (by norm_num)]
      refine mul_le_mul_of_nonneg_right ?_ (zpow_nonneg (by norm_num) _)
      exact_mod_cast hnormal
    omega
  · omega

/-- **A finite number is the nearest one to itself.** -/
theorem round_fraction (canonical : Canonical mantissa exponent) (hm : mantissa ≠ 0)
    (negative : Bool) :
    round negative (fraction mantissa exponent).1 (fraction mantissa exponent).2 =
      .finite negative mantissa exponent canonical := by
  obtain ⟨d, hd, hscaled⟩ := scaled_fraction mantissa exponent
  have hn : (fraction mantissa exponent).1 ≠ 0 := by
    cases exponent with
    | ofNat k => exact Nat.mul_ne_zero hm (Nat.pos_iff_ne_zero.1 (Nat.pow_pos (by decide)))
    | negSucc k => exact hm
  rw [round_of_ne negative hn (exponentFor_fraction canonical hm), hscaled, divideToEven_mul hd,
    pack, dif_pos canonical]

/-! ### All digits -/

theorem two_pow_le {n a b c : Nat} (h : n ≤ a * b + c) : 2 ^ n ≤ (2 ^ a) ^ b * 2 ^ c := by
  rw [← pow_mul, ← pow_add]
  exact Nat.pow_le_pow_right (by decide) h

/-- No number has more digits before the point than the largest one. -/
theorem decimalLength_whole (canonical : Canonical mantissa exponent) (hm : mantissa ≠ 0) {k : Nat}
    (hk : exponent = (k : Int)) : decimalLength (mantissa * 2 ^ k) ≤ 310 := by
  obtain ⟨hlt, -, hmost, -⟩ := canonical
  have hne : mantissa * 2 ^ k ≠ 0 := Nat.mul_ne_zero hm (Nat.pos_iff_ne_zero.1 (by positivity))
  have hle : k ≤ 971 := by omega
  rw [decimalLength_le_iff hne (by decide)]
  have hpow : (2 : Nat) ^ 93 ≤ 10 ^ 28 := by norm_num
  calc mantissa * 2 ^ k < 2 ^ 53 * 2 ^ k := Nat.mul_lt_mul_of_pos_right hlt (by positivity)
    _ = 2 ^ (53 + k) := (pow_add 2 53 k).symm
    _ ≤ (2 ^ 93) ^ 11 * 2 ^ 1 := two_pow_le (by omega)
    _ ≤ (10 ^ 28) ^ 11 * 10 ^ 2 := Nat.mul_le_mul (Nat.pow_le_pow_left hpow 11) (by decide)
    _ = 10 ^ 310 := by rw [← pow_mul, ← pow_add]

/-- A fraction of a power of two has at least as many places as its exponent says, but for a few. -/
theorem decimalLength_places (canonical : Canonical mantissa exponent) (hm : mantissa ≠ 0) {k : Nat}
    (hk : exponent = -(k : Int)) :
    decimalLength (mantissa * 5 ^ k) ≤ k + 16 ∧ k ≤ decimalLength (mantissa * 5 ^ k) + 330 := by
  obtain ⟨hlt, hleast, -, -⟩ := canonical
  have hne : mantissa * 5 ^ k ≠ 0 := Nat.mul_ne_zero hm (Nat.pos_iff_ne_zero.1 (by positivity))
  have hle : k ≤ 1074 := by omega
  constructor
  · have hpos : 0 < k + 16 := Nat.succ_pos _
    rw [decimalLength_le_iff hne hpos]
    have hlt' : mantissa < 10 ^ 16 := lt_trans hlt (by norm_num)
    calc mantissa * 5 ^ k < 10 ^ 16 * 5 ^ k := Nat.mul_lt_mul_of_pos_right hlt' (by positivity)
      _ ≤ 10 ^ 16 * 10 ^ k := Nat.mul_le_mul_left _ (Nat.pow_le_pow_left (by decide) k)
      _ = 10 ^ (k + 16) := by rw [← pow_add, Nat.add_comm]
  · by_contra hshort
    have hpos : 0 < k - 331 := by
      have : 0 < decimalLength (mantissa * 5 ^ k) := by
        rw [decimalLength, if_neg hne]
        exact Nat.length_toDigits_pos
      omega
    have hsmall : mantissa * 5 ^ k < 10 ^ (k - 331) := by
      rw [← decimalLength_le_iff hne hpos]
      omega
    -- five to the power of the places is larger than that
    refine absurd hsmall (Nat.not_lt.2 ?_)
    have hsplit : 5 ^ 331 * 5 ^ (k - 331) = 5 ^ k := pow_mul_pow_sub 5 (by omega)
    have hpow : (2 : Nat) ^ 9 ≤ 5 ^ 4 := by decide
    have htwo : 2 ^ (k - 331) ≤ 5 ^ 331 := by
      calc 2 ^ (k - 331) ≤ (2 ^ 9) ^ 82 * 2 ^ 5 := two_pow_le (by omega)
        _ ≤ (5 ^ 4) ^ 82 * 5 ^ 3 := Nat.mul_le_mul (Nat.pow_le_pow_left hpow 82) (by decide)
        _ = 5 ^ 331 := by rw [← pow_mul, ← pow_add]
    calc 10 ^ (k - 331) = 2 ^ (k - 331) * 5 ^ (k - 331) := by rw [← Nat.mul_pow]
      _ ≤ 5 ^ 331 * 5 ^ (k - 331) := Nat.mul_le_mul_right _ htwo
      _ = 5 ^ k := hsplit
      _ ≤ mantissa * 5 ^ k := Nat.le_mul_of_pos_left _ (Nat.pos_iff_ne_zero.2 hm)

/-- The decimal with all digits of a number is rounded to it. -/
theorem ofDecimal_exactDecimal (canonical : Canonical mantissa exponent) (hm : mantissa ≠ 0) :
    ofDecimal false (exactDecimal mantissa exponent).digits
        (exactDecimal mantissa exponent).exponent =
      .finite false mantissa exponent canonical := by
  have hself := round_fraction canonical hm false
  cases exponent with
  | ofNat k =>
    have hlength := decimalLength_whole canonical hm rfl
    have hne : mantissa * 2 ^ k ≠ 0 := Nat.mul_ne_zero hm (by positivity)
    show ofDecimal false (mantissa * 2 ^ k) 0 = _
    rw [ofDecimal_of_ne false hne, if_neg (by omega), if_neg (by omega)]
    show round false (mantissa * 2 ^ k * 1) 1 = _
    rw [Nat.mul_one]
    exact hself
  | negSucc k =>
    have hexponent : Int.negSucc k = -((k + 1 : Nat) : Int) := rfl
    obtain ⟨hhigh, hlow⟩ := decimalLength_places canonical hm hexponent
    have hne : mantissa * 5 ^ (k + 1) ≠ 0 := Nat.mul_ne_zero hm (by positivity)
    show ofDecimal false (mantissa * 5 ^ (k + 1)) (Int.negSucc k) = _
    have hmagnitude : (decimalLength (mantissa * 5 ^ (k + 1)) : Int) + Int.negSucc k =
        decimalLength (mantissa * 5 ^ (k + 1)) - ((k + 1 : Nat) : Int) := by
      rw [hexponent]
      ring
    rw [ofDecimal_of_ne false hne, hmagnitude, if_neg (by omega), if_neg (by omega)]
    have hten : Nat.pow 10 (k + 1) = 5 ^ (k + 1) * 2 ^ (k + 1) := by
      rw [Nat.pow_eq, ← Nat.mul_pow]
    show round false (mantissa * 5 ^ (k + 1)) (Nat.pow 10 (k + 1)) = _
    rw [hten, Nat.mul_comm mantissa, round_scale (by positivity) _ _ (by positivity)]
    exact hself

/-! ### The shortest decimal -/

/-- Zeros at the end of the digits make no difference. -/
theorem ofDecimal_trim (fuel : Nat) (negative : Bool) (d : Decimal) :
    ofDecimal negative (d.trim fuel).digits (d.trim fuel).exponent =
      ofDecimal negative d.digits d.exponent := by
  induction fuel generalizing d with
  | zero => rfl
  | succ fuel ih =>
    rw [Decimal.trim]
    split
    · rename_i h
      obtain ⟨hne, hmod⟩ := h
      have hdigits : d.digits = 10 * (d.digits / 10) := by omega
      rw [ih]
      dsimp only
      rw [← ofDecimal_shift negative (by omega) d.exponent, ← hdigits]
    · rfl

theorem readsFrom_of_neighbour? {x : Binary64} {num den : Nat} {e : Int} {d : Decimal}
    (h : neighbour? x num den e = some d) : ofDecimal false d.digits d.exponent = x := by
  have hreads : ∀ d : Decimal, x.readsFrom d = true → ofDecimal false d.digits d.exponent = x :=
    fun d hd => of_decide_eq_true hd
  unfold neighbour? at h
  dsimp only at h
  split at h
  · rename_i hlow hhigh
    cases h
    split
    · exact hreads _ hlow
    · exact hreads _ hhigh
  · rename_i hlow hhigh
    cases h
    exact hreads _ hlow
  · rename_i hlow hhigh
    cases h
    exact hreads _ hhigh
  · cases h

/-- **The shortest decimal of a number is rounded to it.** -/
theorem ofDecimal_shortest (canonical : Canonical mantissa exponent) (hm : mantissa ≠ 0)
    (negative : Bool) :
    ofDecimal negative (shortest mantissa exponent canonical).digits
        (shortest mantissa exponent canonical).exponent =
      .finite negative mantissa exponent canonical := by
  refine ofDecimal_of_positive ?_ negative
  rw [shortest]
  dsimp only
  rw [ofDecimal_trim]
  cases hfound : (List.range 17).findSome? fun count =>
      neighbour? (finite false mantissa exponent canonical) (fraction mantissa exponent).1
        (fraction mantissa exponent).2
        (decimalMagnitude (fraction mantissa exponent).1 (fraction mantissa exponent).2 -
          (count + 1 : Nat)) with
  | none => exact ofDecimal_exactDecimal canonical hm
  | some d =>
    obtain ⟨count, -, hcount⟩ := List.exists_of_findSome?_eq_some hfound
    exact readsFrom_of_neighbour? hcount

/-- It has a digit that is not zero. -/
theorem shortest_digits_ne_zero (canonical : Canonical mantissa exponent) (hm : mantissa ≠ 0) :
    (shortest mantissa exponent canonical).digits ≠ 0 := by
  intro hzero
  have h := ofDecimal_shortest canonical hm false
  rw [hzero, ofDecimal_zero] at h
  cases h
  exact hm rfl

end Canonical

end Binary64

end AvroJsonSchema
