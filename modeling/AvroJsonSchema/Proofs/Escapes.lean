import Mathlib.Data.List.Chain
import AvroJsonSchema.Proofs.Encoding
import AvroJsonSchema.Proofs.Readers

/-!
# Texts between quotes, written and read

Every code point is written as itself or as an escape, and the reader takes it back from there, with
one exception: a surrogate that opens a pair is joined with one that closes it, if the escapes of the
two stand next to each other.  A text in which they never do is read as it was.  The reader joins
whatever it can, so the texts it returns are of this kind.

* **`Text.Pairless`**: no two surrogates next to each other form a pair.
* **`Json.Reader.taken?_texts`**: what is written of such a text is read as the text.
* **`Json.Reader.pairless_of_taken?`**: what is read is such a text.
-/

namespace AvroJsonSchema

open Json Json.Reader

/-! ### Pairs of surrogates -/

namespace Text

/-- No two surrogates next to each other form a pair. -/
def Pairless (t : Text) : Prop :=
  t.IsChain fun c d => opensPair c.val = true → closesPair d.val = false

theorem pairless_nil : Pairless [] :=
  .nil

theorem pairless_cons {c : CodePoint} {t : Text} : Pairless (c :: t) ↔
    (opensPair c.val = true → ∀ d r, t = d :: r → closesPair d.val = false) ∧ Pairless t := by
  refine List.isChain_cons.trans (and_congr_left' ⟨fun h ho d r ht => ?_, fun h d hd ho => ?_⟩)
  · exact h d (by rw [ht]; rfl) ho
  · obtain ⟨r, hr⟩ := List.head?_eq_some_iff.1 hd
    exact h ho d r hr

theorem Pairless.of_infix {s t : Text} (ht : t.Pairless) (h : s <:+: t) : s.Pairless :=
  List.IsChain.infix ht h

theorem IsScalar.of_suffix {s t : Text} (ht : t.IsScalar) (h : s <:+ t) : s.IsScalar :=
  fun c hc => ht c (h.subset hc)

theorem closesPair_of_scalar {c : CodePoint} (h : c.isSurrogate = false) :
    closesPair c.val = false := by
  simp only [CodePoint.isSurrogate, closesPair, Bool.and_eq_false_iff, decide_eq_false_iff_not] at h ⊢
  omega

theorem opensPair_of_scalar {c : CodePoint} (h : c.isSurrogate = false) :
    ¬opensPair c.val = true := by
  simp only [CodePoint.isSurrogate, opensPair, Bool.and_eq_false_iff, Bool.and_eq_true,
    decide_eq_false_iff_not, decide_eq_true_eq] at h ⊢
  omega

theorem IsScalar.pairless {t : Text} (h : t.IsScalar) : t.Pairless := by
  induction t with
  | nil => exact pairless_nil
  | cons c t ih =>
    obtain ⟨hc, ht⟩ := List.forall_mem_cons.1 h
    exact pairless_cons.2 ⟨fun ho => absurd ho (opensPair_of_scalar hc), ih ht⟩

/-- A code point that is no surrogate keeps two texts apart. -/
theorem Pairless.join {s t : Text} (hs : s.Pairless) (ht : t.Pairless) {c : CodePoint}
    (hc : c.isSurrogate = false) : Pairless (s ++ c :: t) := by
  have hright : Pairless (c :: t) :=
    pairless_cons.2 ⟨fun ho => absurd ho (opensPair_of_scalar hc), ht⟩
  refine List.isChain_append.2 ⟨hs, hright, fun x _ y hy _ => ?_⟩
  rw [← Option.some.inj hy]
  exact closesPair_of_scalar hc

theorem IsScalar.append_pairless {s t : Text} (hs : s.IsScalar) (ht : t.Pairless) :
    Pairless (s ++ t) := by
  induction s with
  | nil => exact ht
  | cons c s ih =>
    obtain ⟨hc, hs⟩ := List.forall_mem_cons.1 hs
    exact pairless_cons.2 ⟨fun ho => absurd ho (opensPair_of_scalar hc), ih hs⟩

end Text

namespace Json

namespace Reader

open Text

/-! ### Units -/

theorem hexValue?_hexDigit {n : Nat} (h : n < 16) : hexValue? (hexDigit n) = some n := by
  have hval : (hexDigit n).val = if n < 10 then 48 + n else 87 + n :=
    Utf8.ofNat_val (by split <;> omega)
  rw [hexValue?, hval]
  split
  · rw [if_pos (by omega), Nat.add_sub_cancel_left]
  · rw [if_neg (by omega), if_pos (by omega), Nat.add_sub_cancel_left]

theorem takeHex?_hexDigit {n : Nat} (h : n < 16) (r : Text) :
    takeHex? (hexDigit n :: r) = some (n, r) := by
  rw [takeHex?, hexValue?_hexDigit h]
  rfl

/-- Four digits are read as the unit they stand for, if something follows them. -/
theorem takeUnit?_hex {n : Nat} (hn : n < 0x10000) {r : Text} (hr : r ≠ []) :
    takeUnit? (hex 4 n ++ r) = some (n, r) := by
  have hdigits : hex 4 n ++ r = hexDigit (n / 16 / 16 / 16 % 16) :: hexDigit (n / 16 / 16 % 16) ::
      hexDigit (n / 16 % 16) :: hexDigit (n % 16) :: r := rfl
  rw [hdigits, takeUnit?_eq, takeHex?_hexDigit (Nat.mod_lt _ (by decide)), Option.bind_some]
  dsimp only
  rw [takeHex?_hexDigit (Nat.mod_lt _ (by decide)), Option.bind_some]
  dsimp only
  rw [takeHex?_hexDigit (Nat.mod_lt _ (by decide)), Option.bind_some]
  dsimp only
  rw [takeHex?_hexDigit (Nat.mod_lt _ (by decide)), Option.bind_some, if_neg hr]
  dsimp only
  congr 2
  omega

theorem escapedUnit?_backslash (r : Text) : escapedUnit? (CodePoint.ofNat 92 :: r) = numbered? r :=
  (escapedUnit?_cons _ r).trans (if_pos rfl)

/-- What no backslash opens is no escape. -/
theorem escapedUnit?_plain {c : CodePoint} (h : c.val ≠ 92) (r : Text) :
    escapedUnit? (c :: r) = none :=
  (escapedUnit?_cons c r).trans (if_neg h)

theorem escapedUnit?_letter {d : CodePoint} (h : d.val ≠ 117) (r : Text) :
    escapedUnit? (CodePoint.ofNat 92 :: d :: r) = none :=
  (escapedUnit?_backslash _).trans (if_neg h)

/-- A unit as an escape, in front of the rest. -/
theorem escapedUnit_append (n : Nat) (r : Text) :
    escapedUnit n ++ r = CodePoint.ofNat 92 :: CodePoint.ofNat 117 :: (hex 4 n ++ r) :=
  rfl

theorem escapedUnit?_escapedUnit {n : Nat} (hn : n < 0x10000) {r : Text} (hr : r ≠ []) :
    escapedUnit? (escapedUnit n ++ r) = some (some (n, r)) := by
  have hletter : numbered? (CodePoint.ofNat 117 :: (hex 4 n ++ r)) = some (takeUnit? (hex 4 n ++ r)) := by
    rw [numbered?]
    exact if_pos rfl
  rw [escapedUnit_append, escapedUnit?_backslash, hletter, takeUnit?_hex hn hr]

/-! ### One code point -/

/-- How a code point is written: as itself, as a letter, as a unit or as two. -/
theorem escaped_cases (c : CodePoint) :
    (escaped c = [c] ∧ c.val ≠ 34 ∧ c.val ≠ 92 ∧ 32 ≤ c.val ∧ c.val < 0x7F)
      ∨ (∃ d, escaped c = [CodePoint.ofNat 92, d] ∧ d.val ≠ 117 ∧ lettered? d = some c)
      ∨ (escaped c = escapedUnit c.val ∧ c.val < 0x10000)
      ∨ (escaped c = escapedUnit (0xD800 + (c.val - 0x10000) / 0x400) ++
          escapedUnit (0xDC00 + (c.val - 0x10000) % 0x400) ∧ 0x10000 ≤ c.val) := by
  have hletter : ∀ n d : Nat, c.val = n → n < 0x110000 → (CodePoint.ofNat d).val ≠ 117 →
      lettered? (CodePoint.ofNat d) = some (CodePoint.ofNat n) →
      (CodePoint.ofNat d).val ≠ 117 ∧ lettered? (CodePoint.ofNat d) = some c := by
    intro n d hn hlt hd hl
    refine ⟨hd, hl.trans (congrArg some ?_)⟩
    rw [← hn]
    exact dif_pos c.isLt
  unfold escaped
  split
  · exact .inr (.inl ⟨_, rfl, hletter 34 34 ‹_› (by decide) (by decide) (by decide)⟩)
  · exact .inr (.inl ⟨_, rfl, hletter 92 92 ‹_› (by decide) (by decide) (by decide)⟩)
  · exact .inr (.inl ⟨_, rfl, hletter 10 110 ‹_› (by decide) (by decide) (by decide)⟩)
  · exact .inr (.inl ⟨_, rfl, hletter 13 114 ‹_› (by decide) (by decide) (by decide)⟩)
  · exact .inr (.inl ⟨_, rfl, hletter 9 116 ‹_› (by decide) (by decide) (by decide)⟩)
  · exact .inr (.inl ⟨_, rfl, hletter 12 102 ‹_› (by decide) (by decide) (by decide)⟩)
  · exact .inr (.inl ⟨_, rfl, hletter 8 98 ‹_› (by decide) (by decide) (by decide)⟩)
  · rename_i hquote hslash _ _ _ _ _
    split
    · rename_i hplain
      exact .inl ⟨rfl, hquote, hslash, hplain.1, Nat.lt_succ_of_le hplain.2⟩
    · split
      · exact .inr (.inr (.inl ⟨rfl, ‹_›⟩))
      · exact .inr (.inr (.inr ⟨rfl, Nat.le_of_not_lt ‹_›⟩))

/-! ### Reading what has been written -/

/-- A unit is not joined with what follows it. -/
def Apart (n : Nat) (r : Text) : Prop :=
  opensPair n = true →
    escapedUnit? r = none ∨ ∃ m q, escapedUnit? r = some (some (m, q)) ∧ closesPair m = false

theorem joined?_of_apart {n : Nat} {r : Text} (h : Apart n r) :
    joined? (n, r) = some (CodePoint.ofNat n, r) := by
  rw [joined?]
  dsimp only
  split
  · rename_i ho
    rcases h ho with hnone | ⟨m, q, hsome, hm⟩
    · rw [hnone]
    · rw [hsome]
      dsimp only
      rw [hm, if_neg Bool.false_ne_true]
  · rfl

section Written

variable (start : Text) {c d : CodePoint} {r : Text}

theorem taken?_backslash (d : CodePoint) (r : Text) :
    taken? (takeText start (CodePoint.ofNat 92 :: d :: r)) =
      (taken? (takeEscape d r)).bind fun p =>
        (taken? (takeText start p.2)).map (Prod.map (p.1 :: ·) id) := by
  rw [taken?_takeText_cons, if_neg (by decide)]
  exact if_pos rfl

theorem taken?_letter (hd : d.val ≠ 117) (hc : lettered? d = some c) :
    taken? (takeText start (CodePoint.ofNat 92 :: d :: r)) =
      (taken? (takeText start r)).map (Prod.map (c :: ·) id) := by
  rw [taken?_backslash, taken?_takeEscape, if_neg hd, hc]
  rfl

theorem taken?_unit {n : Nat} (hn : n < 0x10000) (hr : r ≠ []) :
    taken? (takeText start (escapedUnit n ++ r)) =
      (joined? (n, r)).bind fun p => (taken? (takeText start p.2)).map (Prod.map (p.1 :: ·) id) := by
  have hletter : taken? (takeEscape (CodePoint.ofNat 117) (hex 4 n ++ r)) =
      taken? (takeNumbered (hex 4 n ++ r)) := (taken?_takeEscape _ _).trans (if_pos rfl)
  rw [escapedUnit_append, taken?_backslash, hletter, taken?_takeNumbered, takeUnit?_hex hn hr]
  rfl

/-- The escapes of a pair are joined. -/
theorem joined?_pair (hc : 0x10000 ≤ c.val) (hr : r ≠ []) :
    joined? (0xD800 + (c.val - 0x10000) / 0x400,
        escapedUnit (0xDC00 + (c.val - 0x10000) % 0x400) ++ r) = some (c, r) := by
  have hlt := c.isLt
  have hopens : opensPair (0xD800 + (c.val - 0x10000) / 0x400) = true := by
    rw [opensPair, Bool.and_eq_true, decide_eq_true_eq, decide_eq_true_eq]
    omega
  have hcloses : closesPair (0xDC00 + (c.val - 0x10000) % 0x400) = true := by
    rw [closesPair, Bool.and_eq_true, decide_eq_true_eq, decide_eq_true_eq]
    omega
  have hsum : 0x10000 + (0xD800 + (c.val - 0x10000) / 0x400 - 0xD800) * 0x400 +
      (0xDC00 + (c.val - 0x10000) % 0x400 - 0xDC00) = c.val := by omega
  rw [joined?, if_pos hopens, escapedUnit?_escapedUnit (by omega) hr]
  dsimp only
  rw [if_pos hcloses, hsum, CodePoint.ofNat, dif_pos hlt]

/-- A code point is read from the way it is written, unless it is joined with what follows. -/
theorem taken?_escaped (hr : r ≠ []) (h : Apart c.val r) :
    taken? (takeText start (escaped c ++ r)) =
      (taken? (takeText start r)).map (Prod.map (c :: ·) id) := by
  rcases escaped_cases c with ⟨hc, hquote, hslash, hlow, -⟩ | ⟨d, hd, hu, hl⟩ | ⟨hc, hlt⟩ | ⟨hc, hle⟩
  · rw [hc, List.singleton_append, taken?_takeText_cons, if_neg hquote, if_neg hslash,
      if_neg (Nat.not_lt.2 hlow)]
  · rw [hd, List.cons_append, List.singleton_append, taken?_letter start hu hl]
  · rw [hc, taken?_unit start hlt hr, joined?_of_apart h, CodePoint.ofNat, dif_pos c.isLt]
    rfl
  · have hunit : 0xD800 + (c.val - 0x10000) / 0x400 < 0x10000 := by
      have := c.isLt
      omega
    rw [hc, List.append_assoc, taken?_unit start hunit (by simp [escapedUnit, hr]), joined?_pair hle hr]
    rfl

end Written

/-- A code point is not joined with one that closes no pair. -/
theorem apart_escaped {c d : CodePoint} (h : opensPair c.val = true → closesPair d.val = false)
    {r : Text} (hr : r ≠ []) : Apart c.val (escaped d ++ r) := by
  intro ho
  rcases escaped_cases d with ⟨hd, -, hslash, -⟩ | ⟨e, hd, hu, -⟩ | ⟨hd, hlt⟩ | ⟨hd, hle⟩
  · rw [hd]
    exact .inl (escapedUnit?_plain hslash r)
  · rw [hd]
    exact .inl (escapedUnit?_letter hu r)
  · rw [hd]
    exact .inr ⟨_, _, escapedUnit?_escapedUnit hlt hr, h ho⟩
  · have hlt := d.isLt
    rw [hd, List.append_assoc]
    refine .inr ⟨_, _, escapedUnit?_escapedUnit (by omega) (by simp [hr]), ?_⟩
    rw [closesPair, Bool.and_eq_false_iff, decide_eq_false_iff_not]
    omega

/-- **A text without pairs is read from what is written of it**, up to the closing quote. -/
theorem taken?_texts (start : Text) {t : Text} (ht : t.Pairless) (rest : Text) :
    taken? (takeText start (t.flatMap escaped ++ CodePoint.ofNat 34 :: rest)) = some (t, rest) := by
  induction t with
  | nil =>
    rw [List.flatMap_nil, List.nil_append, taken?_takeText_cons]
    exact if_pos rfl
  | cons c t ih =>
    obtain ⟨hc, ht⟩ := pairless_cons.1 ht
    have hne : ∀ t : Text, t.flatMap escaped ++ CodePoint.ofNat 34 :: rest ≠ [] := by simp
    have hapart : Apart c.val (t.flatMap escaped ++ CodePoint.ofNat 34 :: rest) := by
      cases t with
      | nil => exact fun _ => .inl (escapedUnit?_plain (by decide) rest)
      | cons d t =>
        rw [List.flatMap_cons, List.append_assoc]
        exact apart_escaped (fun ho => hc ho d t rfl) (hne t)
    rw [List.flatMap_cons, List.append_assoc, taken?_escaped start (hne t) hapart, ih ht]
    rfl

/-! ### What is read -/

theorem takeHex?_suffix {s r : Text} {n : Nat} (h : takeHex? s = some (n, r)) : r <:+ s := by
  cases s with
  | nil => cases h
  | cons c s =>
    obtain ⟨m, -, hm⟩ := Option.map_eq_some_iff.1 h
    cases hm
    exact List.suffix_cons _ _

theorem takeUnit?_suffix {s r : Text} {n : Nat} (h : takeUnit? s = some (n, r)) : r <:+ s := by
  rw [takeUnit?_eq] at h
  obtain ⟨a, ha, h⟩ := Option.bind_eq_some_iff.1 h
  obtain ⟨b, hb, h⟩ := Option.bind_eq_some_iff.1 h
  obtain ⟨c, hc, h⟩ := Option.bind_eq_some_iff.1 h
  obtain ⟨d, hd, h⟩ := Option.bind_eq_some_iff.1 h
  split at h
  · cases h
  · cases h
    exact (takeHex?_suffix hd).trans ((takeHex?_suffix hc).trans
      ((takeHex?_suffix hb).trans (takeHex?_suffix ha)))

theorem escapedUnit?_suffix {s r : Text} {n : Nat} (h : escapedUnit? s = some (some (n, r))) :
    r <:+ s := by
  cases s with
  | nil => cases h
  | cons c s =>
    rw [escapedUnit?_cons] at h
    split at h
    · cases s with
      | nil => cases h
      | cons d s =>
        rw [numbered?] at h
        split at h
        · exact (takeUnit?_suffix (Option.some.inj h)).trans
            ((List.suffix_cons d s).trans (List.suffix_cons c _))
        · cases h
    · cases h

theorem opensPair_ofNat {n : Nat} (h : opensPair (CodePoint.ofNat n).val = true) :
    opensPair n = true := by
  unfold CodePoint.ofNat at h
  split at h
  · exact h
  · cases h

theorem closesPair_ofNat {n : Nat} (h : closesPair (CodePoint.ofNat n).val = true) :
    (CodePoint.ofNat n).val = n := by
  unfold CodePoint.ofNat at h ⊢
  split at h
  · rw [dif_pos ‹_›]
  · cases h

/-- What can be said of a code point and of what follows it: a closing surrogate stands there as a
unit, and none stands after an opening one. -/
structure Unjoined (unit : Option (Option (Nat × Text))) (c : CodePoint) (r : Text) : Prop where
  closes : closesPair c.val = true → ∃ q, unit = some (some (c.val, q))
  opens : opensPair c.val = true → ∀ m q, escapedUnit? r = some (some (m, q)) → closesPair m = false

theorem Unjoined.of_scalar {c : CodePoint} (h : c.isSurrogate = false)
    (unit : Option (Option (Nat × Text))) (r : Text) : Unjoined unit c r where
  closes hc := by
    rw [closesPair_of_scalar h] at hc
    cases hc
  opens ho := absurd ho (opensPair_of_scalar h)

theorem lettered?_scalar {d c : CodePoint} (h : lettered? d = some c) : c.isSurrogate = false := by
  unfold lettered? at h
  split at h
  · rename_i hd
    rw [← Option.some.inj h, CodePoint.isSurrogate, hd]
    rfl
  · rename_i hd
    rw [← Option.some.inj h, CodePoint.isSurrogate, hd]
    rfl
  · rename_i hd
    rw [← Option.some.inj h, CodePoint.isSurrogate, hd]
    rfl
  all_goals first
    | cases h
      done
    | rw [← Option.some.inj h]
      decide

theorem joined?_unjoined {n : Nat} {s r q : Text} {c : CodePoint} (h : joined? (n, s) = some (c, r)) :
    r <:+ s ∧ Unjoined (some (some (n, q))) c r := by
  have hself : ∀ m : Nat, closesPair (CodePoint.ofNat m).val = true →
      ∃ x, some (some (m, q)) = some (some ((CodePoint.ofNat m).val, x)) :=
    fun m hm => ⟨q, by rw [closesPair_ofNat hm]⟩
  rw [joined?] at h
  dsimp only at h
  split at h
  · rename_i ho
    split at h
    · rename_i hnone
      cases h
      refine ⟨List.suffix_refl s, hself n, fun _ m x hx => ?_⟩
      rw [hnone] at hx
      cases hx
    · cases h
    · rename_i m x hm
      split at h
      · rename_i hcloses
        obtain ⟨rfl, rfl⟩ := Prod.mk.inj (Option.some.inj h)
        -- a pair stands for no surrogate
        refine ⟨escapedUnit?_suffix hm, .of_scalar ?_ _ _⟩
        rw [opensPair, Bool.and_eq_true, decide_eq_true_eq, decide_eq_true_eq] at ho
        rw [closesPair, Bool.and_eq_true, decide_eq_true_eq, decide_eq_true_eq] at hcloses
        rw [CodePoint.isSurrogate, Utf8.ofNat_val (by omega), Bool.and_eq_false_iff,
          decide_eq_false_iff_not, decide_eq_false_iff_not]
        omega
      · rename_i hcloses
        cases h
        refine ⟨List.suffix_refl s, hself n, fun _ m' x' hx => ?_⟩
        rw [hm] at hx
        cases hx
        exact Bool.eq_false_iff.2 hcloses
  · rename_i ho
    cases h
    exact ⟨List.suffix_refl s, hself n, fun hn => absurd (opensPair_ofNat hn) ho⟩

theorem takeEscape_unjoined {d c : CodePoint} {s r : Text}
    (h : taken? (takeEscape d s) = some (c, r)) : r <:+ s ∧ Unjoined (numbered? (d :: s)) c r := by
  rw [taken?_takeEscape] at h
  rw [numbered?]
  split at h
  · rename_i hd
    rw [taken?_takeNumbered] at h
    obtain ⟨⟨n, q⟩, hq, hj⟩ := Option.bind_eq_some_iff.1 h
    obtain ⟨hr, hunjoined⟩ := joined?_unjoined (q := q) hj
    rw [if_pos hd, hq]
    exact ⟨hr.trans (takeUnit?_suffix hq), hunjoined⟩
  · obtain ⟨p, hp, heq⟩ := Option.map_eq_some_iff.1 h
    cases heq
    exact ⟨List.suffix_refl s, .of_scalar (lettered?_scalar hp) _ _⟩

/-- **No pair stands in a text that is read**, if the whole that it is read from has no surrogates. -/
theorem pairless_of_taken? {start s t rest : Text} (hs : s.IsScalar)
    (h : taken? (takeText start s) = some (t, rest)) :
    rest <:+ s ∧ t.Pairless ∧ ∀ c r, t = c :: r → closesPair c.val = true →
      ∃ q, escapedUnit? s = some (some (c.val, q)) := by
  induction hn : s.length using Nat.strongRecOn generalizing s t with
  | _ n ih =>
  subst hn
  cases s with
  | nil =>
    rw [takeText] at h
    cases h
  | cons c s =>
    obtain ⟨hc, hs⟩ := List.forall_mem_cons.1 hs
    -- what is put in front of the rest is not joined with it
    have hfront : ∀ {d : CodePoint} {r u : Text}, r.length < (c :: s).length → r <:+ c :: s →
        Unjoined (escapedUnit? (c :: s)) d r →
        (taken? (takeText start r)).map (Prod.map (d :: ·) id) = some (u, rest) →
        rest <:+ c :: s ∧ u.Pairless ∧ ∀ e v, u = e :: v → closesPair e.val = true →
          ∃ q, escapedUnit? (c :: s) = some (some (e.val, q)) := by
      intro d r u hlt hsuffix hunjoined hu
      obtain ⟨⟨t', rest'⟩, ht', heq⟩ := Option.map_eq_some_iff.1 hu
      cases heq
      obtain ⟨hrest, hpairless, hfirst⟩ :=
        ih r.length hlt (IsScalar.of_suffix (List.forall_mem_cons.2 ⟨hc, hs⟩) hsuffix) ht' rfl
      refine ⟨hrest.trans hsuffix, pairless_cons.2 ⟨fun ho e v hv => ?_, hpairless⟩, ?_⟩
      · by_contra hcloses
        obtain ⟨q, hq⟩ := hfirst e v hv (Bool.not_eq_false _ ▸ hcloses)
        exact hcloses (hunjoined.opens ho _ _ hq)
      · intro e v hv he
        cases hv
        exact hunjoined.closes he
    rw [taken?_takeText_cons] at h
    split at h
    · cases h
      exact ⟨List.suffix_cons _ _, pairless_nil, fun _ _ hnil => by cases hnil⟩
    · split at h
      · rename_i hslash
        cases s with
        | nil => cases h
        | cons d q =>
          obtain ⟨⟨p, r⟩, hp, hr⟩ := Option.bind_eq_some_iff.1 h
          obtain ⟨hsuffix, hunjoined⟩ := takeEscape_unjoined hp
          have hlonger : q <:+ c :: d :: q := (List.suffix_cons d q).trans (List.suffix_cons c _)
          have hlength := hsuffix.length_le
          refine hfront (by simp only [List.length_cons]; omega) (hsuffix.trans hlonger) ?_ hr
          rw [escapedUnit?_cons, if_pos hslash]
          exact hunjoined
      · split at h
        · cases h
        · exact hfront (Nat.lt_succ_self _) (List.suffix_cons c s) (.of_scalar hc _ _) h

end Reader

end Json

end AvroJsonSchema
