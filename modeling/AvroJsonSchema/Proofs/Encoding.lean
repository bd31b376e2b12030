import AvroJsonSchema.Document
import AvroJsonSchema.Proofs.Octets

/-!
# Texts in files

A text without surrogates has octets, and these are read as the text again.  A document is such a
text, whatever it holds: its printed form is pure ASCII, since what lies outside is written by number.

* **`Utf8.decode_flatMap`**: a text without surrogates is read from its octets.
* **`Json.isAscii_write`**: a printed tree is ASCII.  **`Document.isAscii_ofText`**: so is a document.
-/

namespace AvroJsonSchema

namespace Text

/-- A text that holds no surrogate. -/
def IsScalar (t : Text) : Prop :=
  ∀ c ∈ t, c.isSurrogate = false

instance (t : Text) : Decidable t.IsScalar :=
  inferInstanceAs (Decidable (∀ c ∈ t, _))

theorem isScalar_nil : IsScalar [] :=
  List.forall_mem_nil _

theorem IsScalar.append {s t : Text} (hs : s.IsScalar) (ht : t.IsScalar) : IsScalar (s ++ t) :=
  fun c hc => (List.mem_append.1 hc).elim (hs c) (ht c)

end Text

namespace Utf8

/-! ### Octets of one code point -/

theorem toNat_octet {n : Nat} (h : n < 0x100) : (UInt8.ofNat n).toNat = n := by
  rw [UInt8.toNat_ofNat', Nat.mod_eq_of_lt h]

section Inside

variable {first : UInt8} {start owed low high value n place : Nat}

theorem toNat_continuation (n : Nat) : (UInt8.ofNat (0x80 + n % 64)).toNat = 0x80 + n % 64 :=
  toNat_octet (by omega)

/-- The octet of six bits that the next octet may have goes on to the octets that follow. -/
theorem decodeFrom_next (hn : low ≤ 0x80 + n % 64 ∧ 0x80 + n % 64 ≤ high) (howed : owed ≠ 1)
    (bs : List UInt8) :
    decodeFrom (.inside first start owed low high value) place (UInt8.ofNat (0x80 + n % 64) :: bs) =
      decodeFrom (.inside first start (owed - 1) 0x80 0xBF (value * 64 + n % 64)) (place + 1) bs := by
  simp only [decodeFrom, advance, toNat_continuation, if_pos hn, if_neg howed,
    Nat.add_sub_cancel_left]

/-- The last octet of a code point gives it. -/
theorem decodeFrom_last (hn : low ≤ 0x80 + n % 64 ∧ 0x80 + n % 64 ≤ high) (bs : List UInt8) :
    decodeFrom (.inside first start 1 low high value) place (UInt8.ofNat (0x80 + n % 64) :: bs) =
      (decodeFrom .between (place + 1) bs).map (CodePoint.ofNat (value * 64 + n % 64) :: ·) := by
  simp only [decodeFrom, advance, toNat_continuation, if_pos hn, if_true, Nat.add_sub_cancel_left]

/-- An octet that begins a code point of more than one. -/
theorem decodeFrom_lead {b : UInt8} {state : State} (hb : 0x80 ≤ b.toNat)
    (h : lead? place b = some state) (bs : List UInt8) :
    decodeFrom .between place (b :: bs) = decodeFrom state (place + 1) bs := by
  simp only [decodeFrom, advance, if_neg (Nat.not_lt.2 hb), h]

end Inside

section Lead

variable {n : Nat} (place : Nat)

theorem lead_two (h : 0x80 ≤ n) (hlt : n < 0x800) :
    lead? place (UInt8.ofNat (0xC0 + n / 64)) =
      some (.inside (UInt8.ofNat (0xC0 + n / 64)) place 1 0x80 0xBF (n / 64)) := by
  have hb : (UInt8.ofNat (0xC0 + n / 64)).toNat = 0xC0 + n / 64 := toNat_octet (by omega)
  rw [lead?, hb, if_pos (by omega), Nat.add_sub_cancel_left]

/-- The second of three octets is bounded, so that no shorter form and no surrogate is read. -/
theorem lead_three (h : 0x800 ≤ n) (hlt : n < 0x10000) (hscalar : ¬(0xD800 ≤ n ∧ n ≤ 0xDFFF)) :
    ∃ low high, lead? place (UInt8.ofNat (0xE0 + n / 4096)) =
        some (.inside (UInt8.ofNat (0xE0 + n / 4096)) place 2 low high (n / 4096)) ∧
      low ≤ 0x80 + n / 64 % 64 ∧ 0x80 + n / 64 % 64 ≤ high := by
  have hb : (UInt8.ofNat (0xE0 + n / 4096)).toNat = 0xE0 + n / 4096 := toNat_octet (by omega)
  rw [lead?, hb, if_neg (by omega)]
  by_cases hfirst : n / 4096 = 0
  · exact ⟨0xA0, 0xBF, by rw [if_pos (by omega), hfirst], by omega, by omega⟩
  · by_cases hlast : n / 4096 = 13
    · exact ⟨0x80, 0x9F, by rw [if_neg (by omega), if_pos (by omega), hlast], by omega, by omega⟩
    · exact ⟨0x80, 0xBF, by rw [if_neg (by omega), if_neg (by omega), if_pos (by omega),
        Nat.add_sub_cancel_left], by omega, by omega⟩

/-- The second of four octets is bounded, so that no shorter form and no number that is too large is
read. -/
theorem lead_four (h : 0x10000 ≤ n) (hlt : n < 0x110000) :
    ∃ low high, lead? place (UInt8.ofNat (0xF0 + n / 262144)) =
        some (.inside (UInt8.ofNat (0xF0 + n / 262144)) place 3 low high (n / 262144)) ∧
      low ≤ 0x80 + n / 4096 % 64 ∧ 0x80 + n / 4096 % 64 ≤ high := by
  have hb : (UInt8.ofNat (0xF0 + n / 262144)).toNat = 0xF0 + n / 262144 := toNat_octet (by omega)
  rw [lead?, hb, if_neg (by omega), if_neg (by omega), if_neg (by omega), if_neg (by omega)]
  by_cases hfirst : n / 262144 = 0
  · exact ⟨0x90, 0xBF, by rw [if_pos (by omega), hfirst], by omega, by omega⟩
  · by_cases hlast : n / 262144 = 4
    · exact ⟨0x80, 0x8F, by rw [if_neg (by omega), if_neg (by omega), if_pos (by omega), hlast],
        by omega, by omega⟩
    · exact ⟨0x80, 0xBF, by rw [if_neg (by omega), if_pos (by omega), Nat.add_sub_cancel_left],
        by omega, by omega⟩

end Lead

/-- **A code point that is no surrogate is read from its octets.** -/
theorem decodeFrom_encodePoint {c : CodePoint} (h : c.isSurrogate = false) (place : Nat)
    (bs : List UInt8) : ∃ next, decodeFrom .between place (encodePoint c ++ bs) =
      (decodeFrom .between next bs).map (c :: ·) := by
  obtain ⟨n, hlt⟩ := c
  have hscalar : ¬(0xD800 ≤ n ∧ n ≤ 0xDFFF) := by
    rintro ⟨hlow, hhigh⟩
    rw [CodePoint.isSurrogate, decide_eq_true hlow, decide_eq_true hhigh] at h
    cases h
  have hpoint : ∀ m, m = n → CodePoint.ofNat m = ⟨n, hlt⟩ := fun m hm => by
    rw [hm, CodePoint.ofNat, dif_pos hlt]
  have hlarge : ∀ m, 0x80 ≤ m → m < 0x100 → 0x80 ≤ (UInt8.ofNat m).toNat := fun m hm hm' => by
    rwa [toNat_octet hm']
  unfold encodePoint
  dsimp only
  by_cases h1 : n < 0x80
  · have hb : (UInt8.ofNat n).toNat = n := toNat_octet (by omega)
    refine ⟨place + 1, ?_⟩
    rw [if_pos h1, List.singleton_append]
    simp only [decodeFrom, advance, hb, if_pos h1, hpoint n rfl]
  · rw [if_neg h1]
    by_cases h2 : n < 0x800
    · refine ⟨place + 1 + 1, ?_⟩
      rw [if_pos h2, List.cons_append, List.singleton_append,
        decodeFrom_lead (hlarge _ (by omega) (by omega)) (lead_two place (by omega) h2),
        decodeFrom_last (by omega), hpoint _ (by omega)]
    · rw [if_neg h2]
      by_cases h3 : n < 0x10000
      · obtain ⟨low, high, hlead, hbounds⟩ := lead_three place (by omega) h3 hscalar
        refine ⟨place + 1 + 1 + 1, ?_⟩
        rw [if_pos h3, List.cons_append, List.cons_append, List.singleton_append,
          decodeFrom_lead (hlarge _ (by omega) (by omega)) hlead,
          decodeFrom_next hbounds (by decide), decodeFrom_last (by omega), hpoint _ (by omega)]
      · obtain ⟨low, high, hlead, hbounds⟩ := lead_four place (by omega) hlt
        refine ⟨place + 1 + 1 + 1 + 1, ?_⟩
        rw [if_neg h3, List.cons_append, List.cons_append, List.cons_append, List.singleton_append,
          decodeFrom_lead (hlarge _ (by omega) (by omega)) hlead,
          decodeFrom_next hbounds (by decide), decodeFrom_next (by omega) (by decide),
          decodeFrom_last (by omega), hpoint _ (by omega)]

/-! ### Texts -/

theorem decodeFrom_flatMap {t : Text} (h : t.IsScalar) (place : Nat) :
    decodeFrom .between place (t.flatMap encodePoint) = .ok t := by
  induction t generalizing place with
  | nil => rfl
  | cons c t ih =>
    obtain ⟨next, hnext⟩ := decodeFrom_encodePoint (h c List.mem_cons_self) place
      (t.flatMap encodePoint)
    rw [List.flatMap_cons, hnext, ih (fun d hd => h d (List.mem_cons_of_mem _ hd))]
    rfl

/-- A text without surrogates is read from the octets of its code points. -/
theorem decode_flatMap {t : Text} (h : t.IsScalar) : decode (t.flatMap encodePoint) = .ok t :=
  decodeFrom_flatMap h 0

/-- The octets of a text are those of its code points, unless it holds a surrogate. -/
theorem encode_of_isScalar {t : Text} (h : t.IsScalar) : encode t = .ok (t.flatMap encodePoint) := by
  have hrest : t.dropWhile (!·.isSurrogate) = [] := by
    induction t with
    | nil => rfl
    | cons c t ih =>
      rw [List.dropWhile_cons, h c List.mem_cons_self]
      exact ih fun d hd => h d (List.mem_cons_of_mem _ hd)
  rw [encode, encodeFault?, hrest]

end Utf8

/-! ### Printed trees -/

namespace Text

/-- A text of ASCII. -/
def IsAscii (t : Text) : Prop :=
  ∀ c ∈ t, c.val < 0x80

instance (t : Text) : Decidable t.IsAscii :=
  inferInstanceAs (Decidable (∀ c ∈ t, _))

theorem IsAscii.isScalar {t : Text} (h : t.IsAscii) : t.IsScalar := by
  intro c hc
  have hlt := h c hc
  have hlow : decide (0xD800 ≤ c.val) = false := decide_eq_false (by omega)
  rw [CodePoint.isSurrogate, hlow, Bool.false_and]

theorem isAscii_nil : IsAscii [] :=
  nofun

theorem isAscii_cons {c : CodePoint} {t : Text} : IsAscii (c :: t) ↔ c.val < 0x80 ∧ IsAscii t :=
  List.forall_mem_cons

theorem IsAscii.append {s t : Text} (hs : IsAscii s) (ht : IsAscii t) : IsAscii (s ++ t) := by
  intro c hc
  exact (List.mem_append.1 hc).elim (hs c) (ht c)

theorem IsAscii.of_subset {s t : Text} (ht : IsAscii t) (h : s ⊆ t) : IsAscii s :=
  fun c hc => ht c (h hc)

theorem isAscii_replicate (n : Nat) {c : CodePoint} (hc : c.val < 0x80) :
    IsAscii (List.replicate n c) :=
  fun _ hmem => (List.mem_replicate.1 hmem).2 ▸ hc

theorem isAscii_hexDigit {n : Nat} (h : n < 16) : (hexDigit n).val < 0x80 := by
  rw [hexDigit, Utf8.ofNat_val (by split <;> omega)]
  split <;> omega

theorem isAscii_hex (width n : Nat) : IsAscii (hex width n) := by
  induction width generalizing n with
  | zero => exact isAscii_nil
  | succ width ih =>
    refine (ih (n / 16)).append (isAscii_cons.2 ⟨isAscii_hexDigit ?_, isAscii_nil⟩)
    exact Nat.mod_lt _ (by decide)

theorem isAscii_ofNat (n : Nat) : IsAscii (ofNat n) := by
  intro c hc
  obtain ⟨digit, hdigit, rfl⟩ := List.mem_map.1 hc
  have hd : digit.isDigit = true := Nat.isDigit_of_mem_toDigits (by decide) (by decide) hdigit
  have hle : digit.val ≤ '9'.val := of_decide_eq_true (Bool.and_eq_true_iff.1 hd).2
  exact Nat.lt_of_le_of_lt (UInt32.le_iff_toNat_le.1 hle) (by decide)

theorem isAscii_ofInt (n : Int) : IsAscii (ofInt n) := by
  cases n with
  | ofNat n => exact isAscii_ofNat n
  | negSucc n => exact IsAscii.append (by decide) (isAscii_ofNat _)

end Text

namespace NumberStyle

open Text

theorem isAscii_zeros (n : Nat) : IsAscii (zeros n) :=
  isAscii_replicate n (by decide)

theorem isAscii_positional {digits : Text} (h : digits.IsAscii) (whole : Int) :
    IsAscii (positional digits whole) := by
  rw [positional]
  split
  · exact (IsAscii.append (by decide) (isAscii_zeros _)).append h
  · dsimp only
    split
    · exact (h.append (isAscii_zeros _)).append (by decide)
    · exact ((h.of_subset (List.take_subset _ _)).append (by decide)).append
        (h.of_subset (List.drop_subset _ _))

theorem isAscii_scientific {digits : Text} (h : digits.IsAscii) (exponent : Int) :
    IsAscii (scientific digits exponent) := by
  have hfraction : IsAscii (if digits.length ≤ 1 then [] else Text.ofString "." ++ digits.drop 1) := by
    split
    · exact isAscii_nil
    · exact IsAscii.append (by decide) (h.of_subset (List.drop_subset _ _))
  have hsign : IsAscii (Text.ofString (if exponent < 0 then "e-" else "e+")) := by
    split <;> decide
  exact ((((h.of_subset (List.take_subset _ _)).append hfraction).append hsign).append
    (isAscii_zeros _)).append (isAscii_ofNat _)

/-- A number is written in ASCII if infinity and not-a-number have names in ASCII. -/
theorem isAscii_write {style : NumberStyle} (hinfinity : style.infinity.IsAscii)
    (hnan : style.nan.IsAscii) (x : Binary64) : IsAscii (style.write x) := by
  have hsign : ∀ negative, IsAscii (sign negative) := by decide
  cases x with
  | nan => exact hnan
  | infinity negative => exact (hsign negative).append hinfinity
  | finite negative mantissa exponent canonical =>
    rw [write]
    split
    · exact (hsign negative).append (by decide)
    · refine (hsign negative).append ?_
      rw [writeDecimal]
      split
      · exact isAscii_positional (isAscii_ofNat _) _
      · exact isAscii_scientific (isAscii_ofNat _) _

end NumberStyle

namespace Json

open Text

theorem isAscii_escapedUnit (n : Nat) : IsAscii (escapedUnit n) :=
  IsAscii.append (by decide) (isAscii_hex 4 n)

theorem isAscii_escaped (c : CodePoint) : IsAscii (escaped c) := by
  rw [escaped]
  split
  all_goals first
    | decide
    | split
      · rename_i h
        exact isAscii_cons.2 ⟨by omega, isAscii_nil⟩
      · split
        · exact isAscii_escapedUnit _
        · exact (isAscii_escapedUnit _).append (isAscii_escapedUnit _)

theorem isAscii_writeText (t : Text) : IsAscii (writeText t) := by
  refine (IsAscii.append (by decide) fun c hc => ?_).append (by decide)
  obtain ⟨d, -, hd⟩ := List.mem_flatMap.1 hc
  exact isAscii_escaped d c hd

theorem isAscii_numberStyle (x : Binary64) : IsAscii (numberStyle.write x) :=
  NumberStyle.isAscii_write (by decide) (by decide) x

theorem isAscii_newline (layout : Layout) (depth : Nat) : IsAscii (layout.newline depth) := by
  rw [Layout.newline]
  split
  · exact isAscii_nil
  · exact isAscii_cons.2 ⟨by decide, isAscii_replicate _ (by decide)⟩

mutual

/-- **A tree is printed in ASCII**, as long as what stands between two entries is. -/
theorem isAscii_write {layout : Layout} (h : layout.separator.IsAscii) (depth : Nat) :
    (j : Json) → IsAscii (write layout depth j)
  | .null => by rw [write]; decide
  | .bool true => by rw [write]; decide
  | .bool false => by rw [write]; decide
  | .int n => by rw [write]; exact isAscii_ofInt n
  | .float x => by rw [write]; exact isAscii_numberStyle x
  | .str t => by rw [write]; exact isAscii_writeText t
  | .arr [] => by rw [write]; decide
  | .arr (j :: js) => by
    rw [write]
    exact ((IsAscii.append (by decide) (isAscii_writeItems h (depth + 1) (j :: js))).append
      (isAscii_newline _ _)).append (by decide)
  | .obj [] => by rw [write]; decide
  | .obj (e :: es) => by
    rw [write]
    exact ((IsAscii.append (by decide) (isAscii_writeEntries h (depth + 1) (e :: es))).append
      (isAscii_newline _ _)).append (by decide)

theorem isAscii_writeItems {layout : Layout} (h : layout.separator.IsAscii) (depth : Nat) :
    (js : List Json) → IsAscii (writeItems layout depth js)
  | [] => by rw [writeItems]; exact isAscii_nil
  | [j] => by
    rw [writeItems]
    exact (isAscii_newline _ _).append (isAscii_write h depth j)
  | j :: i :: js => by
    rw [writeItems]
    exact (((isAscii_newline _ _).append (isAscii_write h depth j)).append h).append
      (isAscii_writeItems h depth (i :: js))

theorem isAscii_writeEntries {layout : Layout} (h : layout.separator.IsAscii) (depth : Nat) :
    (es : List (Key × Json)) → IsAscii (writeEntries layout depth es)
  | [] => by rw [writeEntries]; exact isAscii_nil
  | [(k, j)] => by
    rw [writeEntries]
    exact (((isAscii_newline _ _).append (isAscii_writeText _)).append (by decide)).append
      (isAscii_write h depth j)
  | (k, j) :: e :: es => by
    rw [writeEntries]
    exact (((((isAscii_newline _ _).append (isAscii_writeText _)).append (by decide)).append
      (isAscii_write h depth j)).append h).append (isAscii_writeEntries h depth (e :: es))

end

theorem isAscii_pretty (j : Json) : IsAscii j.pretty :=
  isAscii_write (by decide) 0 j

end Json

namespace Document

/-- The text of a document is what is written of the document of a schema. -/
theorem ofText_ok {setup : Setup} {t text : Text} (h : ofText setup t = .ok text) :
    ∃ schema document, Schema.parse t = .ok schema ∧ ofSchema setup schema = .ok document ∧
      text = document.pretty := by
  rw [ofText] at h
  cases hschema : Schema.parse t with
  | error fault =>
    rw [hschema] at h
    cases h
  | ok schema =>
    rw [hschema] at h
    simp only [bind, Except.bind] at h
    cases hdocument : ofSchema setup schema with
    | error fault =>
      rw [hdocument] at h
      cases h
    | ok document =>
      rw [hdocument] at h
      cases h
      exact ⟨schema, document, rfl, hdocument, rfl⟩

/-- A document is ASCII. -/
theorem isAscii_ofText {setup : Setup} {text document : Text}
    (h : ofText setup text = .ok document) : document.IsAscii := by
  obtain ⟨_, tree, -, -, rfl⟩ := ofText_ok h
  exact Json.isAscii_pretty tree

end Document

end AvroJsonSchema
