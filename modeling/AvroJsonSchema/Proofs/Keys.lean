import AvroJsonSchema.Proofs.Tables

/-!
# Keys that are one

Two keys of an object are one if they have the same value, so that a number may be spelled in more
than one way: as an integer, as a boolean, and as a binary number, zero even with either sign.  A
number in canonical form has no second spelling but this, and so the keys fall into classes: every key
stands for at most one integer, and two keys are one if they are equal or stand for the same integer.

* **`Binary64.same_of_sameInt`**: an integer is the value of one number, or of the two zeros.
* **`Json.Key.same_iff`**: when two keys are one, which is an equivalence.
* **`Table.get?_set_same`**, **`Table.get?_set_of_not_same`**, **`Table.get?_merge_of_not_same`**:
  what stands under a key of any kind after a write.
-/

namespace AvroJsonSchema

/-! ### Numbers with the value of an integer -/

namespace Binary64

/-- A shorter shift does not reach a mantissa of full length. -/
theorem shift_ne {m m' i j : Nat} (hm : m < Nat.pow 2 53) (hfull : Nat.pow 2 52 ≤ m' ∨ j = 0)
    (hlt : i < j) : m * Nat.pow 2 i ≠ m' * Nat.pow 2 j := by
  intro h
  change m * 2 ^ i = m' * 2 ^ j at h
  obtain ⟨d, rfl⟩ : ∃ d, j = i + (d + 1) := ⟨j - i - 1, by omega⟩
  have hpow : m' * 2 ^ (i + (d + 1)) = m' * 2 ^ (d + 1) * 2 ^ i := by
    rw [Nat.pow_add, Nat.mul_comm (2 ^ i), Nat.mul_assoc]
  rw [hpow] at h
  have hcancel : m = m' * 2 ^ (d + 1) := Nat.eq_of_mul_eq_mul_right (Nat.two_pow_pos i) h
  have hlength : 2 ^ 52 ≤ m' := hfull.resolve_right (by omega)
  have hshift : 2 ^ 1 ≤ 2 ^ (d + 1) := Nat.pow_le_pow_right (by decide) (by omega)
  have hlarge : 2 ^ 52 * 2 ^ 1 ≤ m' * 2 ^ (d + 1) := Nat.mul_le_mul hlength hshift
  have hshort : m < 2 ^ 53 := hm
  omega

theorem shift_ne_zero (k : Nat) : ((Nat.pow 2 k : Nat) : Int) ≠ 0 :=
  Int.natCast_ne_zero.2 (Nat.ne_of_gt (Nat.two_pow_pos k))

/-- An exponent that is not below `-k` may be counted from there. -/
theorem scaledIs_iff {mantissa exponent n : Int} {k : Nat} (h : -(k : Int) ≤ exponent) :
    scaledIs mantissa exponent n = true ↔
      mantissa * (Nat.pow 2 (exponent + k).toNat : Nat) = n * (Nat.pow 2 k : Nat) := by
  have hadd : ∀ i j : Nat, ((Nat.pow 2 (i + j) : Nat) : Int) =
      (Nat.pow 2 i : Nat) * (Nat.pow 2 j : Nat) := fun i j => by
    rw [← Int.natCast_mul]
    exact congrArg _ (Nat.pow_add 2 i j)
  cases exponent with
  | ofNat e =>
    have hcount : (Int.ofNat e + (k : Int)).toNat = e + k := by
      show ((e : Int) + (k : Int)).toNat = e + k
      omega
    rw [hcount, hadd, ← Int.mul_assoc, Int.mul_eq_mul_right_iff (shift_ne_zero k)]
    simp [scaledIs]
  | negSucc e =>
    obtain ⟨d, rfl⟩ : ∃ d, k = e + 1 + d := ⟨k - (e + 1), by omega⟩
    have hcount : (Int.negSucc e + ((e + 1 + d : Nat) : Int)).toNat = d := by omega
    rw [hcount, hadd, ← Int.mul_assoc, Int.mul_eq_mul_right_iff (shift_ne_zero d)]
    simp [scaledIs]

/-- A number has the value of one integer at most. -/
theorem sameInt_injective {x : Binary64} {m n : Int} (hm : x.sameInt m = true)
    (hn : x.sameInt n = true) : m = n := by
  cases x with
  | finite negative mantissa exponent canonical =>
    have hleast : -((1074 : Nat) : Int) ≤ exponent := canonical.2.1
    have hm' := (scaledIs_iff hleast).1 hm
    have hn' := (scaledIs_iff hleast).1 hn
    exact (Int.mul_eq_mul_right_iff (shift_ne_zero _)).1 (hm'.symm.trans hn')
  | infinity negative => cases hm
  | nan => cases hm

theorem sameInt_zero {x : Binary64} (h : x.isZero = true) : x.sameInt 0 = true := by
  cases x with
  | finite negative mantissa exponent canonical =>
    have hzero : mantissa = 0 := by simpa [isZero] using h
    subst hzero
    cases exponent <;> simp [sameInt, scaledIs]
  | infinity negative => cases h
  | nan => cases h

theorem natAbs_signed (negative : Bool) (mantissa : Nat) :
    (if negative then -(mantissa : Int) else mantissa).natAbs = mantissa := by
  cases negative <;> simp

/-- An integer is the value of one number, or of the two zeros. -/
theorem same_of_sameInt {x y : Binary64} {n : Int} (hx : x.sameInt n = true)
    (hy : y.sameInt n = true) : x.same y = true := by
  cases x with
  | infinity negative => cases hx
  | nan => cases hx
  | finite s m e hm =>
    cases y with
    | infinity negative => cases hy
    | nan => cases hy
    | finite s' m' e' hm' =>
      have hcanonical := hm
      have hcanonical' := hm'
      obtain ⟨hlt, hleast, -, hfull⟩ := hcanonical
      obtain ⟨hlt', hleast', -, hfull'⟩ := hcanonical'
      have hshifted := ((scaledIs_iff (k := 1074) hleast).1 hx).trans
        ((scaledIs_iff (k := 1074) hleast').1 hy).symm
      have habs := congrArg Int.natAbs hshifted
      simp only [Int.natAbs_mul, Int.natAbs_natCast, natAbs_signed] at habs
      have hcount : (e + (1074 : Nat)).toNat = (e' + (1074 : Nat)).toNat := by
        rcases Nat.lt_trichotomy (e + (1074 : Nat)).toNat (e' + (1074 : Nat)).toNat with h | h | h
        · exact absurd habs (shift_ne hlt (hfull'.imp_right (by omega)) h)
        · exact h
        · exact absurd habs.symm (shift_ne hlt' (hfull.imp_right (by omega)) h)
      obtain rfl : e = e' := by omega
      have hmantissa : m = m' := Nat.eq_of_mul_eq_mul_right (Nat.two_pow_pos _) habs
      subst hmantissa
      rw [Int.mul_eq_mul_right_iff (shift_ne_zero _)] at hshifted
      by_cases hzero : m = 0
      · subst hzero
        exact Bool.or_eq_true_iff.2 (.inr rfl)
      · obtain rfl : s = s' := by
          cases s <;> cases s' <;> simp at hshifted <;> first | rfl | omega
        exact Bool.or_eq_true_iff.2 (.inl (decide_eq_true rfl))

end Binary64

/-! ### Keys with the value of an integer -/

namespace Json.Key

/-- A key has the value of an integer. -/
def IsInt (k : Key) (n : Int) : Prop :=
  k.asInt? = some n ∨ ∃ x, k = .float x ∧ x.sameInt n = true

theorem IsInt.injective {k : Key} {m n : Int} (hm : k.IsInt m) (hn : k.IsInt n) : m = n := by
  rcases hm with hm | ⟨x, rfl, hm⟩ <;> rcases hn with hn | ⟨y, hy, hn⟩
  · exact Option.some.inj (hm.symm.trans hn)
  · subst hy
    cases hm
  · cases hn
  · cases hy
    exact Binary64.sameInt_injective hm hn

@[simp] theorem isInt_text {t : Text} {n : Int} : ¬IsInt (.text t) n := by
  simp [IsInt, asInt?]

@[simp] theorem isInt_null {n : Int} : ¬IsInt .null n := by
  simp [IsInt, asInt?]

@[simp] theorem isInt_bool {b : Bool} {n : Int} : IsInt (.bool b) n ↔ (if b then 1 else 0) = n := by
  simp [IsInt, asInt?]

@[simp] theorem isInt_int {m n : Int} : IsInt (.int m) n ↔ m = n := by
  simp [IsInt, asInt?]

@[simp] theorem isInt_float {x : Binary64} {n : Int} :
    IsInt (.float x) n ↔ x.sameInt n = true := by
  simp [IsInt, asInt?]

theorem same_float_iff {x y : Binary64} :
    x.same y = true ↔ x = y ∨ ∃ n, x.sameInt n = true ∧ y.sameInt n = true := by
  constructor
  · intro h
    refine (Bool.or_eq_true_iff.1 h).imp of_decide_eq_true fun hzero => ?_
    obtain ⟨hx, hy⟩ := Bool.and_eq_true_iff.1 hzero
    exact ⟨0, Binary64.sameInt_zero hx, Binary64.sameInt_zero hy⟩
  · rintro (rfl | ⟨n, hx, hy⟩)
    · exact Bool.or_eq_true_iff.2 (.inl (decide_eq_true rfl))
    · exact Binary64.same_of_sameInt hx hy

/-- **Two keys are one** if they are equal or have the value of the same integer. -/
theorem same_iff {a b : Key} : (a == b) = true ↔ a = b ∨ ∃ n, a.IsInt n ∧ b.IsInt n := by
  show same a b = true ↔ _
  cases a <;> cases b <;> simp [same, asInt?]
  case bool.bool a b => cases a <;> cases b <;> decide
  case bool.int => exact eq_comm
  case int.bool => exact eq_comm
  case int.int => exact Eq.symm
  case float.float => exact same_float_iff

theorem same_trans {a b c : Key} (hab : (a == b) = true) (hbc : (b == c) = true) :
    (a == c) = true := by
  rcases same_iff.1 hab with rfl | ⟨m, ham, hbm⟩
  · exact hbc
  · rcases same_iff.1 hbc with rfl | ⟨n, hbn, hcn⟩
    · exact hab
    · obtain rfl := hbm.injective hbn
      exact same_iff.2 (.inr ⟨m, ham, hcn⟩)

instance : EquivBEq Key where
  rfl := same_iff.2 (.inl rfl)
  symm h := same_iff.2 ((same_iff.1 h).imp Eq.symm fun ⟨n, ha, hb⟩ => ⟨n, hb, ha⟩)
  trans := same_trans

end Json.Key

/-! ### What stands under a key -/

namespace Table

variable {κ α : Type} [BEq κ] [EquivBEq κ]

theorem get?_set_same (k : κ) (v : α) (t : Table κ α) : get? k (set k v t) = some v := by
  induction t with
  | nil => simp only [set, get?, BEq.rfl, if_true]
  | cons e t ih =>
    obtain ⟨k', w⟩ := e
    by_cases h : (k' == k) = true
    · simp only [set, h, if_true, get?]
    · simp only [set, h, get?, Bool.false_eq_true, if_false]
      exact ih

theorem get?_set_of_not_same {k k' : κ} (hne : ¬(k' == k) = true) (v : α) (t : Table κ α) :
    get? k (set k' v t) = get? k t := by
  induction t with
  | nil => simp only [set, get?, hne, Bool.false_eq_true, if_false]
  | cons e t ih =>
    obtain ⟨k'', w⟩ := e
    by_cases h : (k'' == k') = true
    · have hother : ¬(k'' == k) = true := fun hk => hne (BEq.trans (BEq.symm h) hk)
      simp only [set, h, if_true, get?, hother, Bool.false_eq_true, if_false]
    · simp only [set, h, get?, Bool.false_eq_true, if_false, ih]

/-- What is put in under other keys changes nothing under a key. -/
theorem get?_merge_of_not_same {k : κ} {t u : Table κ α} (h : ∀ e ∈ u, ¬(e.1 == k) = true) :
    get? k (merge t u) = get? k t := by
  induction u generalizing t with
  | nil => rfl
  | cons e u ih =>
    rw [merge_cons, ih fun i hi => h i (List.mem_cons_of_mem _ hi),
      get?_set_of_not_same (h e List.mem_cons_self)]

end Table

end AvroJsonSchema
