import AvroJsonSchema.Proofs.Encoding
import AvroJsonSchema.Proofs.Readers
import AvroJsonSchema.Proofs.Rounding
import AvroJsonSchema.Proofs.Texts

/-!
# Numbers written and read

A number is written as a numeral: a sign, digits without a needless zero in front, and perhaps a
fraction and an exponent.  Such a text is read as that numeral, as long as what follows could not
belong to it.  The digits of an integer stand for it, and the digits and the exponent of any other
number for its shortest decimal, up to zeros at the end, so the number is read again.

* **`Json.Numeral.text`**, **`Json.Numeral.Proper`**: how a numeral is written.
* **`Json.Numeral.take?_text`**: a numeral is read from its text.
* **`Json.Numeral.exists_writeDecimal`**: a decimal is written as a numeral of its value.
* **`Json.Reader.taken?_int`**, **`Json.Reader.taken?_float`**: a written number is read.
-/

namespace AvroJsonSchema

open NumberStyle

/-! ### Digits -/

namespace Text

/-- A text of ASCII digits. -/
def IsDigits (t : Text) : Prop :=
  ∀ c ∈ t, c.isAsciiDigit = true

theorem IsDigits.append {s t : Text} (hs : s.IsDigits) (ht : t.IsDigits) : IsDigits (s ++ t) :=
  fun c hc => (List.mem_append.1 hc).elim (hs c) (ht c)

theorem isDigits_nil : IsDigits [] :=
  List.forall_mem_nil _

theorem isDigits_zeros (n : Nat) : IsDigits (zeros n) := by
  intro c hc
  rw [(List.mem_replicate.1 hc).2]
  decide

theorem isDigits_zero : IsDigits [CodePoint.ofNat 48] :=
  isDigits_zeros 1

theorem isDigits_ofNat (n : Nat) : IsDigits (ofNat n) := by
  intro c hc
  obtain ⟨digit, hdigit, rfl⟩ := List.mem_map.1 hc
  have hd : digit.isDigit = true := Nat.isDigit_of_mem_toDigits (by decide) (by decide) hdigit
  have hlow : '0'.val ≤ digit.val := of_decide_eq_true (Bool.and_eq_true_iff.1 hd).1
  have hhigh : digit.val ≤ '9'.val := of_decide_eq_true (Bool.and_eq_true_iff.1 hd).2
  have hlow' : 48 ≤ digit.toNat := UInt32.le_iff_toNat_le.1 hlow
  have hhigh' : digit.toNat ≤ 57 := UInt32.le_iff_toNat_le.1 hhigh
  rw [CodePoint.isAsciiDigit, Bool.and_eq_true, decide_eq_true_eq, decide_eq_true_eq]
  exact ⟨hlow', hhigh'⟩

theorem digitsValue_foldl (t : Text) (n : Nat) :
    t.foldl (fun n c => 10 * n + (c.val - 48)) n = n * 10 ^ t.length + digitsValue t := by
  rw [digitsValue]
  induction t generalizing n with
  | nil => simp
  | cons c t ih =>
    rw [List.foldl_cons, List.foldl_cons, ih, ih (10 * 0 + _), List.length_cons, pow_succ]
    ring

theorem digitsValue_append (s t : Text) :
    digitsValue (s ++ t) = digitsValue s * 10 ^ t.length + digitsValue t := by
  rw [digitsValue, List.foldl_append, digitsValue_foldl]
  rfl

theorem digitsValue_zeros (n : Nat) : digitsValue (zeros n) = 0 := by
  induction n with
  | zero => rfl
  | succ n ih =>
    rw [zeros, List.replicate_succ, ← List.singleton_append, digitsValue_append]
    exact (congrArg (0 * _ + ·) ih).trans (by rw [Nat.zero_mul])

theorem digitsValue_ofNat (n : Nat) : digitsValue (ofNat n) = n := by
  have hfold : digitsValue (ofNat n) = Nat.ofDigitChars 10 (Nat.toDigits 10 n) 0 := by
    rw [digitsValue, ofNat, List.foldl_map]
    rfl
  rw [hfold, Nat.ofDigitChars_ten_toDigits]

theorem length_ofNat (n : Nat) : (ofNat n).length = (Nat.toDigits 10 n).length :=
  List.length_map _

theorem length_ofNat_pos (n : Nat) : 0 < (ofNat n).length := by
  rw [length_ofNat]
  exact Nat.length_toDigits_pos

/-- A row of digits stands for a number with no more digits. -/
theorem digitsValue_lt {t : Text} (h : t.IsDigits) : digitsValue t < 10 ^ t.length := by
  induction t with
  | nil => decide
  | cons d t ih =>
    have hd := h d List.mem_cons_self
    rw [CodePoint.isAsciiDigit, Bool.and_eq_true, decide_eq_true_eq, decide_eq_true_eq] at hd
    have ih := ih fun e he => h e (List.mem_cons_of_mem _ he)
    have hone : digitsValue [d] = d.val - 48 := by
      show 10 * 0 + (d.val - 48) = _
      omega
    rw [← List.singleton_append, digitsValue_append, hone, List.singleton_append,
      List.length_cons, pow_succ]
    calc (d.val - 48) * 10 ^ t.length + digitsValue t
        < (d.val - 48) * 10 ^ t.length + 10 ^ t.length := Nat.add_lt_add_left ih _
      _ = (d.val - 48 + 1) * 10 ^ t.length := by ring
      _ ≤ 10 * 10 ^ t.length := Nat.mul_le_mul_right _ (by omega)
      _ = 10 ^ t.length * 10 := Nat.mul_comm _ _

/-- The digits of a positive number begin with one that is not zero. -/
theorem ofNat_eq_cons {n : Nat} (hn : n ≠ 0) : ∃ c t, ofNat n = c :: t ∧ c.val ≠ 48 := by
  obtain ⟨c, t, h⟩ := List.exists_cons_of_length_pos (length_ofNat_pos n)
  refine ⟨c, t, h, fun hzero => ?_⟩
  -- with a zero in front there would be as many digits for a smaller number
  have hvalue := digitsValue_ofNat n
  have hlength := length_ofNat n
  rw [h, ← List.singleton_append, digitsValue_append] at hvalue
  have hfirst : digitsValue [c] = 0 := by
    show 10 * 0 + (c.val - 48) = 0
    omega
  rw [hfirst, Nat.zero_mul, Nat.zero_add] at hvalue
  rw [h, List.length_cons] at hlength
  have hdigits : IsDigits t := fun d hd => isDigits_ofNat n d (h ▸ List.mem_cons_of_mem _ hd)
  have hsmall : n < 10 ^ t.length := hvalue ▸ digitsValue_lt hdigits
  rcases Nat.eq_zero_or_pos t.length with hnone | hsome
  · rw [hnone, pow_zero] at hsmall
    omega
  · have := (Nat.length_toDigits_le_iff (by decide : 1 < 10) hsome).2 hsmall
    omega

end Text

namespace Json

namespace Numeral

open Text

/-! ### The text of a numeral -/

/-- Digits without a needless zero in front. -/
def IsWhole (t : Text) : Prop :=
  t = [CodePoint.ofNat 48] ∨ (t.IsDigits ∧ ∃ c r, t = c :: r ∧ c.val ≠ 48)

/-- A numeral that can be written. -/
structure Proper (n : Numeral) : Prop where
  whole : IsWhole n.whole
  fraction : n.fraction.IsDigits
  exponent : ∀ e, n.exponent = some e → e.2 ≠ [] ∧ e.2.IsDigits

/-- The point and the digits after it, if there are any. -/
def fractionText (n : Numeral) : Text :=
  if n.fraction = [] then [] else CodePoint.ofNat 46 :: n.fraction

/-- The exponent with its letter and its sign, if there is one. -/
def exponentText (n : Numeral) : Text :=
  n.exponent.elim [] fun e =>
    CodePoint.ofNat 101 :: (Text.ofString (if e.1 then "-" else "+") ++ e.2)

/-- The text of a numeral. -/
def text (n : Numeral) : Text :=
  sign n.negative ++ n.whole ++ n.fractionText ++ n.exponentText

/-- No digit stands at the front. -/
def NoDigit (s : Text) : Prop :=
  ∀ c r, s = c :: r → c.isAsciiDigit = false

/-- Nothing stands at the front that could belong to a numeral before it. -/
def Ends (s : Text) : Prop :=
  ∀ c r, s = c :: r → c.isAsciiDigit = false ∧ c.val ≠ 46 ∧ c.val ≠ 101 ∧ c.val ≠ 69

theorem noDigit_cons {c : CodePoint} {r : Text} (h : c.isAsciiDigit = false) : NoDigit (c :: r) := by
  intro d q heq
  cases heq
  exact h

theorem Ends.noDigit {s : Text} (h : Ends s) : NoDigit s :=
  fun c r heq => (h c r heq).1

theorem ends_nil : Ends [] := by
  intro c r heq
  cases heq

theorem ends_cons {c : CodePoint} {r : Text}
    (h : c.isAsciiDigit = false ∧ c.val ≠ 46 ∧ c.val ≠ 101 ∧ c.val ≠ 69) : Ends (c :: r) := by
  intro d q heq
  cases heq
  exact h

theorem takeDigits_append {t s : Text} (ht : t.IsDigits) (hs : NoDigit s) :
    takeDigits (t ++ s) = (t, s) := by
  have hfront : takeDigits s = ([], s) := by
    cases s with
    | nil => rfl
    | cons c r => exact takeDigits_of_not_digit (hs c r rfl) r
  obtain ⟨htake, hdrop⟩ := Prod.mk.inj hfront
  rw [takeDigits, List.takeWhile_append_of_pos ht, List.dropWhile_append_of_pos ht, htake, hdrop,
    List.append_nil]

theorem IsWhole.isDigits {t : Text} (h : IsWhole t) : t.IsDigits := by
  rcases h with rfl | ⟨h, -⟩
  · exact isDigits_zero
  · exact h

theorem IsWhole.eq_cons {t : Text} (h : IsWhole t) :
    ∃ c r, t = c :: r ∧ c.isAsciiDigit = true := by
  have hdigits := h.isDigits
  rcases h with rfl | ⟨-, c, r, rfl, -⟩
  · exact ⟨_, [], rfl, by decide⟩
  · exact ⟨c, r, rfl, hdigits c List.mem_cons_self⟩

theorem takeWhole?_append {t s : Text} (ht : IsWhole t) (hs : NoDigit s) :
    takeWhole? (t ++ s) = some (t, s) := by
  rcases ht with rfl | ⟨hdigits, c, r, rfl, hc⟩
  · rfl
  · have hdigit := hdigits c List.mem_cons_self
    rw [List.cons_append, takeWhole?, if_neg hc, if_pos hdigit, ← List.cons_append,
      takeDigits_append hdigits hs]

theorem takeSign_append {t : Text} (ht : IsWhole t) (negative : Bool) (s : Text) :
    takeSign (sign negative ++ (t ++ s)) = (negative, t ++ s) := by
  obtain ⟨c, r, rfl, hc⟩ := ht.eq_cons
  cases negative with
  | true => rfl
  | false =>
    have hne : c.val ≠ 45 := by
      intro heq
      rw [CodePoint.isAsciiDigit, heq] at hc
      exact absurd hc (by decide)
    show takeSign (c :: (r ++ s)) = _
    rw [takeSign, if_neg hne]
    rfl

theorem takeFraction_append {n : Numeral} (h : n.Proper) {s : Text}
    (hs : ∀ c r, s = c :: r → c.isAsciiDigit = false ∧ c.val ≠ 46) :
    takeFraction (n.fractionText ++ s) = (n.fraction, s) := by
  have hdigits : NoDigit s := fun c r heq => (hs c r heq).1
  rw [fractionText]
  split
  · rename_i hnone
    rw [hnone]
    cases s with
    | nil => rfl
    | cons c r =>
      rw [List.nil_append, takeFraction_cons, if_neg fun hpoint => (hs c r rfl).2 hpoint.1]
  · rename_i hsome
    rw [List.cons_append, takeFraction_cons, takeDigits_append h.fraction hdigits,
      if_pos ⟨rfl, hsome⟩]

theorem takeExponent_append {n : Numeral} (h : n.Proper) {s : Text} (hs : Ends s) :
    takeExponent (n.exponentText ++ s) = (n.exponent, s) := by
  rw [exponentText]
  cases hexponent : n.exponent with
  | none =>
    cases s with
    | nil => rfl
    | cons c r =>
      obtain ⟨-, -, hsmall, hlarge⟩ := hs c r rfl
      show takeExponent (c :: r) = _
      rw [takeExponent, if_neg fun hletter => hletter.elim hsmall hlarge]
  | some e =>
    obtain ⟨negative, digits⟩ := e
    obtain ⟨hne, hdigits⟩ := h.exponent _ hexponent
    have htake := takeDigits_append hdigits hs.noDigit
    obtain ⟨d, ds, rfl⟩ := List.exists_cons_of_ne_nil hne
    have hsign : takeExponentSign (Text.ofString (if negative then "-" else "+") ++ ((d :: ds) ++ s)) =
        (negative, (d :: ds) ++ s) := by
      cases negative <;> rfl
    rw [Option.elim_some, List.cons_append, List.append_assoc, takeExponent, if_pos (.inl rfl)]
    dsimp only
    rw [hsign]
    dsimp only
    rw [htake]

/-- **A numeral is read from its text.** -/
theorem take?_text {n : Numeral} (h : n.Proper) {s : Text} (hs : Ends s) :
    take? (n.text ++ s) = some (n, s) := by
  -- what follows the fraction, and what follows the whole part
  have hexponent : ∀ c r, n.exponentText ++ s = c :: r → c.isAsciiDigit = false ∧ c.val ≠ 46 := by
    intro c r heq
    rw [exponentText] at heq
    cases he : n.exponent with
    | none =>
      rw [he, Option.elim_none, List.nil_append] at heq
      exact ⟨(hs c r heq).1, (hs c r heq).2.1⟩
    | some e =>
      rw [he, Option.elim_some] at heq
      rw [← (List.cons.inj heq).1]
      decide
  have hfraction : NoDigit (n.fractionText ++ (n.exponentText ++ s)) := by
    rw [fractionText]
    split
    · exact fun c r heq => (hexponent c r heq).1
    · exact noDigit_cons (by decide)
  have htext : n.text ++ s =
      sign n.negative ++ (n.whole ++ (n.fractionText ++ (n.exponentText ++ s))) := by
    simp only [text, List.append_assoc]
  rw [htext, take?, takeSign_append h.whole]
  dsimp only
  rw [takeWhole?_append h.whole hfraction, Option.map_some]
  dsimp only
  rw [takeFraction_append h hexponent]
  dsimp only
  rw [takeExponent_append h hs]

/-! ### Integers -/

/-- The numeral of an integer. -/
def ofInt (n : Int) : Numeral :=
  ⟨decide (n < 0), Text.ofNat n.natAbs, [], none⟩

theorem isWhole_ofNat (n : Nat) : IsWhole (Text.ofNat n) := by
  rcases eq_or_ne n 0 with rfl | hn
  · exact .inl rfl
  · exact .inr ⟨isDigits_ofNat n, ofNat_eq_cons hn⟩

theorem proper_ofInt (n : Int) : (ofInt n).Proper where
  whole := isWhole_ofNat n.natAbs
  fraction := isDigits_nil
  exponent e he := by cases he

theorem text_ofInt (n : Int) : (ofInt n).text = Text.ofInt n := by
  have htext : (ofInt n).text = sign (decide (n < 0)) ++ Text.ofNat n.natAbs := by
    rw [text, exponentText, ofInt, Option.elim_none, List.append_nil]
    exact List.append_nil _
  rw [htext]
  cases n with
  | ofNat n => rfl
  | negSucc n =>
    rw [decide_eq_true (Int.negSucc_lt_zero n)]
    rfl

/-- The numeral of an integer that is not too large stands for it. -/
theorem value_ofInt {n : Int} (hn : n.natAbs < 10 ^ digitLimit) : (ofInt n).value = .ok (.int n) := by
  have hlength : ¬digitLimit < (Text.ofNat n.natAbs).length := by
    rw [length_ofNat, Nat.not_lt]
    exact (Nat.length_toDigits_le_iff (by decide : 1 < 10) (by decide)).2 hn
  have hinteger : (ofInt n).isInteger = true := rfl
  rw [value, if_pos hinteger]
  show (if digitLimit < (Text.ofNat n.natAbs).length then Except.error _ else _) = _
  rw [if_neg hlength]
  dsimp only
  show Except.ok (Json.int (if decide (n < 0) = true then -(digitsValue (Text.ofNat n.natAbs) : Int)
    else digitsValue (Text.ofNat n.natAbs))) = _
  rw [digitsValue_ofNat]
  congr 2
  split
  · rename_i h
    have := of_decide_eq_true h
    omega
  · rename_i h
    have : ¬n < 0 := fun hlt => h (decide_eq_true hlt)
    omega

/-! ### Decimals -/

/-- A numeral stands for a decimal, up to zeros at the end of its digits. -/
structure StandsFor (n : Numeral) (d : Decimal) : Prop where
  proper : n.Proper
  not_integer : n.isInteger = false
  zeros : ∃ k : Nat, digitsValue (n.whole ++ n.fraction) = d.digits * 10 ^ k ∧
    n.scale = d.exponent - k

theorem StandsFor.value {n : Numeral} {d : Decimal} (h : n.StandsFor d) (hd : d.digits ≠ 0) :
    n.value = .ok (.float (Binary64.ofDecimal n.negative d.digits d.exponent)) := by
  obtain ⟨k, hvalue, hscale⟩ := h.zeros
  rw [Numeral.value, h.not_integer, if_neg Bool.false_ne_true, hvalue, hscale,
    Binary64.ofDecimal_shift_pow n.negative hd, sub_add_cancel]

theorem scale_none (negative : Bool) (whole fraction : Text) :
    scale ⟨negative, whole, fraction, none⟩ = -(fraction.length : Int) :=
  zero_sub _

theorem scale_some (negative : Bool) (whole fraction digits : Text) (exponent : Int)
    (h : digitsValue digits = exponent.natAbs) :
    scale ⟨negative, whole, fraction, some (decide (exponent < 0), digits)⟩ =
      exponent - fraction.length := by
  by_cases hneg : exponent < 0
  · rw [decide_eq_true hneg]
    show -(digitsValue digits : Int) - (fraction.length : Int) = _
    rw [h]
    omega
  · rw [decide_eq_false hneg]
    show (digitsValue digits : Int) - (fraction.length : Int) = _
    rw [h]
    omega

theorem IsWhole.append {t s : Text} (ht : t.IsDigits) (hs : s.IsDigits) {c : CodePoint} {r : Text}
    (hc : t = c :: r) (hne : c.val ≠ 48) : IsWhole (t ++ s) :=
  .inr ⟨ht.append hs, c, r ++ s, by rw [hc, List.cons_append], hne⟩

theorem isDigits_take {t : Text} (h : t.IsDigits) (n : Nat) : IsDigits (t.take n) :=
  fun c hc => h c (List.mem_of_mem_take hc)

theorem isDigits_drop {t : Text} (h : t.IsDigits) (n : Nat) : IsDigits (t.drop n) :=
  fun c hc => h c (List.mem_of_mem_drop hc)

theorem isWhole_take {t : Text} (ht : t.IsDigits) {c : CodePoint} {r : Text} (hc : t = c :: r)
    (hne : c.val ≠ 48) {n : Nat} (hn : 0 < n) : IsWhole (t.take n) := by
  obtain ⟨m, rfl⟩ := Nat.exists_eq_succ_of_ne_zero (Nat.pos_iff_ne_zero.1 hn)
  refine .inr ⟨isDigits_take ht _, c, r.take m, ?_, hne⟩
  rw [hc]
  rfl

/-- A number below one: zeros stand between the point and the digits. -/
theorem positional_below (negative : Bool) {d : Decimal} (hd : d.digits ≠ 0)
    (hw : d.exponent + (Text.ofNat d.digits).length ≤ 0) :
    ∃ n : Numeral, n.negative = negative ∧ n.StandsFor d ∧ n.text = sign negative ++
      positional (Text.ofNat d.digits) (d.exponent + (Text.ofNat d.digits).length) := by
  set w := d.exponent + (Text.ofNat d.digits).length with hwdef
  obtain ⟨c, r, hc, -⟩ := ofNat_eq_cons hd
  have hsome : zeros (-w).toNat ++ Text.ofNat d.digits ≠ [] := by
    rw [hc]
    simp
  refine ⟨⟨negative, [CodePoint.ofNat 48], zeros (-w).toNat ++ Text.ofNat d.digits, none⟩, rfl,
    ⟨⟨.inl rfl, (isDigits_zeros _).append (isDigits_ofNat _), fun e he => by cases he⟩, ?_, 0, ?_, ?_⟩,
    ?_⟩
  · rw [isInteger, List.isEmpty_eq_false_iff.2 hsome, Bool.false_and]
  · rw [digitsValue_append, digitsValue_append, digitsValue_zeros, digitsValue_ofNat]
    show 0 * _ + (0 * _ + d.digits) = _
    rw [Nat.zero_mul, Nat.zero_mul, Nat.zero_add, Nat.zero_add, pow_zero, Nat.mul_one]
  · rw [scale_none, List.length_append, zeros, List.length_replicate]
    push_cast
    omega
  · rw [text, fractionText, if_neg hsome, positional, if_pos hw]
    simp only [exponentText, Option.elim_none, List.append_nil, List.append_assoc]
    rfl

/-- A whole number: zeros stand between the digits and the point. -/
theorem positional_whole (negative : Bool) {d : Decimal} (hd : d.digits ≠ 0) (he : 0 ≤ d.exponent) :
    ∃ n : Numeral, n.negative = negative ∧ n.StandsFor d ∧ n.text = sign negative ++
      positional (Text.ofNat d.digits) (d.exponent + (Text.ofNat d.digits).length) := by
  obtain ⟨c, r, hc, hne⟩ := ofNat_eq_cons hd
  obtain ⟨k, hk⟩ := Int.eq_ofNat_of_zero_le he
  have hpos := length_ofNat_pos d.digits
  have hw : ¬d.exponent + ((Text.ofNat d.digits).length : Int) ≤ 0 := by omega
  have hcount : (d.exponent + ((Text.ofNat d.digits).length : Int)).toNat =
      (Text.ofNat d.digits).length + k := by omega
  refine ⟨⟨negative, Text.ofNat d.digits ++ zeros k, [CodePoint.ofNat 48], none⟩, rfl,
    ⟨⟨.append (isDigits_ofNat _) (isDigits_zeros k) hc hne, isDigits_zero, fun e he => by cases he⟩, rfl,
      k + 1, ?_, ?_⟩, ?_⟩
  · rw [digitsValue_append, digitsValue_append, digitsValue_zeros, digitsValue_ofNat, zeros,
      List.length_replicate]
    show (d.digits * 10 ^ k + 0) * 10 ^ 1 + 0 = _
    ring
  · rw [scale_none, hk]
    show -((1 : Nat) : Int) = _
    push_cast
    ring
  · rw [text, positional, if_neg hw]
    dsimp only
    rw [hcount, if_pos (Nat.le_add_right _ _), Nat.add_sub_cancel_left]
    simp only [exponentText, Option.elim_none, List.append_nil, List.append_assoc]
    rfl

/-- A number with a point among its digits. -/
theorem positional_between (negative : Bool) {d : Decimal} (hd : d.digits ≠ 0) (he : d.exponent < 0)
    (hw : 0 < d.exponent + (Text.ofNat d.digits).length) :
    ∃ n : Numeral, n.negative = negative ∧ n.StandsFor d ∧ n.text = sign negative ++
      positional (Text.ofNat d.digits) (d.exponent + (Text.ofNat d.digits).length) := by
  obtain ⟨c, r, hc, hne⟩ := ofNat_eq_cons hd
  obtain ⟨k, hk⟩ := Int.eq_ofNat_of_zero_le (Int.le_of_lt hw)
  have hkpos : 0 < k := by omega
  have hlt : k < (Text.ofNat d.digits).length := by omega
  have hsome : (Text.ofNat d.digits).drop k ≠ [] := by
    rw [Ne, List.drop_eq_nil_iff, Nat.not_le]
    exact hlt
  refine ⟨⟨negative, (Text.ofNat d.digits).take k, (Text.ofNat d.digits).drop k, none⟩, rfl,
    ⟨⟨isWhole_take (isDigits_ofNat _) hc hne hkpos, isDigits_drop (isDigits_ofNat _) k,
      fun e he => by cases he⟩, ?_, 0, ?_, ?_⟩, ?_⟩
  · rw [isInteger, List.isEmpty_eq_false_iff.2 hsome, Bool.false_and]
  · rw [List.take_append_drop, digitsValue_ofNat, pow_zero, Nat.mul_one]
  · rw [scale_none, List.length_drop]
    push_cast [Nat.cast_sub (Nat.le_of_lt hlt)]
    omega
  · rw [text, fractionText, if_neg hsome, positional, if_neg (Int.not_le.2 hw), hk]
    dsimp only
    rw [Int.toNat_natCast, if_neg (Nat.not_le.2 hlt)]
    simp only [exponentText, Option.elim_none, List.append_nil, List.append_assoc]
    rfl

/-- A number with an exponent. -/
theorem scientific_text (negative : Bool) {d : Decimal} (hd : d.digits ≠ 0) :
    ∃ n : Numeral, n.negative = negative ∧ n.StandsFor d ∧ n.text = sign negative ++
      scientific (Text.ofNat d.digits) (d.exponent + (Text.ofNat d.digits).length - 1) := by
  obtain ⟨c, r, hc, hne⟩ := ofNat_eq_cons hd
  set e := d.exponent + ((Text.ofNat d.digits).length : Int) - 1 with hedef
  have hpos := length_ofNat_pos d.digits
  have hsize : Text.ofNat e.natAbs ≠ [] := List.length_pos_iff.1 (length_ofNat_pos _)
  have hdigits : digitsValue (zeros (2 - (Text.ofNat e.natAbs).length) ++ Text.ofNat e.natAbs) =
      e.natAbs := by
    rw [digitsValue_append, digitsValue_zeros, digitsValue_ofNat, Nat.zero_mul, Nat.zero_add]
  refine ⟨⟨negative, (Text.ofNat d.digits).take 1, (Text.ofNat d.digits).drop 1,
      some (decide (e < 0), zeros (2 - (Text.ofNat e.natAbs).length) ++ Text.ofNat e.natAbs)⟩, rfl,
    ⟨⟨isWhole_take (isDigits_ofNat _) hc hne Nat.one_pos, isDigits_drop (isDigits_ofNat _) 1,
      fun x hx => ?_⟩, Bool.and_false _, 0, ?_, ?_⟩, ?_⟩
  · obtain rfl := Option.some.inj hx
    exact ⟨fun hnil => hsize (List.append_eq_nil_iff.1 hnil).2,
      (isDigits_zeros _).append (isDigits_ofNat _)⟩
  · rw [List.take_append_drop, digitsValue_ofNat, pow_zero, Nat.mul_one]
  · rw [scale_some _ _ _ _ e hdigits, List.length_drop]
    push_cast [Nat.cast_sub hpos]
    omega
  · have hfraction : (if (Text.ofNat d.digits).drop 1 = [] then []
          else CodePoint.ofNat 46 :: (Text.ofNat d.digits).drop 1) =
        if (Text.ofNat d.digits).length ≤ 1 then []
          else Text.ofString "." ++ (Text.ofNat d.digits).drop 1 := by
      by_cases hone : (Text.ofNat d.digits).length ≤ 1
      · rw [if_pos hone, if_pos (List.drop_eq_nil_iff.2 hone)]
      · rw [if_neg hone, if_neg fun hnil => hone (List.drop_eq_nil_iff.1 hnil)]
        rfl
    have hsign : CodePoint.ofNat 101 :: Text.ofString (if decide (e < 0) = true then "-" else "+") =
        Text.ofString (if e < 0 then "e-" else "e+") := by
      by_cases hneg : e < 0
      · rw [decide_eq_true hneg, if_pos hneg, if_pos rfl]
        rfl
      · rw [decide_eq_false hneg, if_neg hneg, if_neg Bool.false_ne_true]
        rfl
    rw [text, fractionText, exponentText, Option.elim_some]
    dsimp only
    rw [hfraction, ← List.cons_append, hsign, scientific]
    simp only [List.append_assoc]

/-- **A decimal is written as a numeral that stands for it.** -/
theorem exists_writeDecimal (style : NumberStyle) (negative : Bool) {d : Decimal}
    (hd : d.digits ≠ 0) :
    ∃ n : Numeral, n.negative = negative ∧ n.StandsFor d ∧
      n.text = sign negative ++ style.writeDecimal d := by
  have hsum : d.exponent + ((Text.ofNat d.digits).length : Int) - 1 + 1 =
      d.exponent + (Text.ofNat d.digits).length := sub_add_cancel _ _
  rw [writeDecimal]
  split
  · rw [hsum]
    rcases le_or_gt 0 d.exponent with he | he
    · exact positional_whole negative hd he
    · rcases le_or_gt (d.exponent + ((Text.ofNat d.digits).length : Int)) 0 with hw | hw
      · exact positional_below negative hd hw
      · exact positional_between negative hd he hw
  · exact scientific_text negative hd

/-- The numeral of a zero that is written with a point. -/
theorem zero_text (negative : Bool) : ∃ n : Numeral, n.Proper ∧
    n.value = .ok (.float (.zero negative)) ∧ n.text = sign negative ++ Text.ofString "0.0" := by
  refine ⟨⟨negative, [CodePoint.ofNat 48], [CodePoint.ofNat 48], none⟩,
    ⟨.inl rfl, isDigits_zero, fun e he => by cases he⟩, ?_, ?_⟩
  · have hinteger : isInteger ⟨negative, [CodePoint.ofNat 48], [CodePoint.ofNat 48], none⟩ = false :=
      rfl
    rw [value, hinteger, if_neg Bool.false_ne_true]
    show Except.ok (Json.float (Binary64.ofDecimal negative 0 _)) = _
    rw [Binary64.ofDecimal_zero]
  · rw [text, exponentText, Option.elim_none, List.append_nil, List.append_assoc]
    rfl

/-- **A finite number is written as a numeral of its value.** -/
theorem exists_write (style : NumberStyle) (negative : Bool) {mantissa : Nat} {exponent : Int}
    (canonical : Canonical mantissa exponent) :
    ∃ n : Numeral, n.Proper ∧ n.value = .ok (.float (.finite negative mantissa exponent canonical)) ∧
      n.text = style.write (.finite negative mantissa exponent canonical) := by
  rw [NumberStyle.write]
  split
  · rename_i hzero
    subst hzero
    obtain rfl : exponent = -1074 := canonical.2.2.2.resolve_left (by decide)
    exact zero_text negative
  · rename_i hm
    have hd := Binary64.shortest_digits_ne_zero canonical hm
    obtain ⟨n, rfl, hstands, htext⟩ := exists_writeDecimal style negative hd
    refine ⟨n, hstands.proper, ?_, htext⟩
    rw [hstands.value hd, Binary64.ofDecimal_shortest canonical hm]

end Numeral

/-! ### Reading -/

namespace Reader

open Numeral

/-- The first word that stands at the front is taken. -/
theorem word?_words (s : Text) :
    word? s words = words.findSome? fun w => (Text.after? w.1 s).map (w.2, ·) := by
  have hall : ∀ ws : List (Text × Json), (∀ w ∈ ws, w.1 ≠ []) →
      word? s ws = ws.findSome? fun w => (Text.after? w.1 s).map (w.2, ·) := by
    intro ws hws
    induction ws with
    | nil => rfl
    | cons w ws ih =>
      rw [word?_cons s w.1 w.2 ws (hws w List.mem_cons_self),
        ih fun v hv => hws v (List.mem_cons_of_mem _ hv), List.findSome?_cons]
      cases Text.after? w.1 s <;> rfl
  exact hall words (by decide)

theorem after?_eq_none_of_ne {c d : CodePoint} (h : c ≠ d) (w s : Text) :
    Text.after? (c :: w) (d :: s) = none := by
  rw [Text.after?, if_neg h]

/-- No word begins like a numeral: with a digit, or with a sign and a digit. -/
theorem word?_numeral {t : Text} (ht : IsWhole t) (negative : Bool) (s : Text) :
    word? (sign negative ++ (t ++ s)) words = none := by
  obtain ⟨c, r, rfl, hc⟩ := ht.eq_cons
  have hother : ∀ w ∈ words, ∃ a b v, w.1 = a :: b :: v ∧ a.isAsciiDigit = false ∧
      (a = CodePoint.ofNat 45 → b.isAsciiDigit = false) := by
    intro w hw
    simp only [words, List.mem_cons, List.not_mem_nil, or_false] at hw
    rcases hw with rfl | rfl | rfl | rfl | rfl | rfl
    all_goals exact ⟨_, _, _, rfl, by decide, by decide⟩
  have hdigit : ∀ a : CodePoint, a.isAsciiDigit = false → a ≠ c := by
    intro a ha heq
    rw [heq, hc] at ha
    cases ha
  rw [word?_words, List.findSome?_eq_none_iff]
  intro w hw
  obtain ⟨a, b, v, heq, ha, hb⟩ := hother w hw
  rw [heq, Option.map_eq_none_iff]
  cases negative with
  | false => exact after?_eq_none_of_ne (hdigit a ha) _ _
  | true =>
    show Text.after? (a :: b :: v) (CodePoint.ofNat 45 :: c :: (r ++ s)) = none
    by_cases hminus : a = CodePoint.ofNat 45
    · rw [Text.after?, if_pos hminus]
      exact after?_eq_none_of_ne (hdigit b (hb hminus)) _ _
    · exact after?_eq_none_of_ne hminus _ _

/-- A word is taken, whatever follows it, if the words before it in the list begin otherwise. -/
theorem taken?_word (before after : List (Text × Json)) {w : Text} {j : Json}
    (h : words = before ++ (w, j) :: after) (hbefore : ∀ v ∈ before, v.1.head? ≠ w.head?) (s : Text) :
    taken? (takeScalar (w ++ s)) = some (j, s) := by
  have hwords : ∀ v ∈ before ++ (w, j) :: after, v.1 ≠ [] := h ▸ by decide
  obtain ⟨d, q, rfl⟩ := List.exists_cons_of_ne_nil (hwords (w, j) (by simp))
  have hnone : before.findSome? (fun v => (Text.after? v.1 (d :: q ++ s)).map (v.2, ·)) = none := by
    rw [List.findSome?_eq_none_iff]
    intro v hv
    obtain ⟨c, r, hc⟩ := List.exists_cons_of_ne_nil (hwords v (List.mem_append_left _ hv))
    have hne : c ≠ d := by
      intro heq
      exact hbefore v hv (by rw [hc, heq]; rfl)
    rw [hc, List.cons_append, after?_eq_none_of_ne hne, Option.map_none]
  rw [taken?_takeScalar, word?_words, h, List.findSome?_append, hnone, Option.none_or,
    List.findSome?_cons, Text.after?_append]
  rfl

/-- What a numeral stands for is taken from its text. -/
theorem taken?_numeral {n : Numeral} (hn : n.Proper) {j : Json} (hj : n.value = .ok j) {s : Text}
    (hs : Ends s) : taken? (takeScalar (n.text ++ s)) = some (j, s) := by
  have hword : word? (n.text ++ s) words = none := by
    rw [Numeral.text, List.append_assoc, List.append_assoc, List.append_assoc]
    exact word?_numeral hn.whole n.negative _
  rw [taken?_takeScalar, hword, Option.none_or, take?_text hn hs, Option.bind_some, number?, hj]
  rfl

/-- **A written integer is read**, if it has not too many digits. -/
theorem taken?_int {n : Int} (hn : n.natAbs < 10 ^ digitLimit) {s : Text} (hs : Ends s) :
    taken? (takeScalar (Text.ofInt n ++ s)) = some (.int n, s) := by
  rw [← text_ofInt]
  exact taken?_numeral (proper_ofInt n) (value_ofInt hn) hs

/-- **A written number is read.** -/
theorem taken?_float (x : Binary64) {s : Text} (hs : Ends s) :
    taken? (takeScalar (numberStyle.write x ++ s)) = some (.float x, s) := by
  cases x with
  | nan => exact taken?_word (words.take 3) (words.drop 4) rfl (by decide) s
  | infinity negative =>
    cases negative with
    | false => exact taken?_word (words.take 4) (words.drop 5) rfl (by decide) s
    | true => exact taken?_word (words.take 5) (words.drop 6) rfl (by decide) s
  | finite negative mantissa exponent canonical =>
    obtain ⟨n, hproper, hvalue, htext⟩ := exists_write numberStyle negative canonical
    rw [← htext]
    exact taken?_numeral hproper hvalue hs

end Reader

end Json

end AvroJsonSchema
