import Mathlib.Data.List.TakeWhile
import AvroJsonSchema.Registry
import AvroJsonSchema.Proofs.Encoding
import AvroJsonSchema.Proofs.Faults
import AvroJsonSchema.Proofs.Pointer

/-!
# Addresses of versions

The address of a version of a subject is parted at its slashes into the segments that it was built
from, since the segment of the subject holds neither a slash nor a mark that begins a query or a
fragment.  That segment is read back by putting its octets together again, so an address belongs to
one subject and one version only.

* **`Registry.IsVersion`**: the versions that can be asked for.  **`Registry.checkVersion_iff`**: they
  are the ones that pass.
* **`Registry.IsSegment`**: a segment of unreserved marks and escapes.
* **`Registry.percentDecode_segment`**: the segment of a subject is read as the subject.
* **`Registry.LeadsTo`**: what stands behind the base of an address.  **`Registry.LeadsTo.unique`**: it
  tells the subject and the version.
* **`Registry.addresses_identify`**: when there is an address, what it consists of, and when two
  addresses are equal.
-/

namespace AvroJsonSchema

namespace Registry

/-! ### Versions -/

/-- The number that decimal digits of any script write. -/
def decimalsValue (t : Text) : Nat :=
  t.foldl (fun n c => 10 * n + c.decimal?.getD 0) 0

/-- A positive number in decimal digits of any script, not too many of them. -/
structure IsNumber (t : Text) : Prop where
  ne_nil : t ≠ []
  decimal : ∀ c ∈ t, c.decimal?.isSome
  length_le : t.length ≤ 4300
  positive : 0 < decimalsValue t

/-- A version that can be asked for. -/
def IsVersion (t : Text) : Prop :=
  t = latest ∨ IsNumber t

instance (t : Text) : Decidable (IsNumber t) :=
  decidable_of_iff (t ≠ [] ∧ (∀ c ∈ t, c.decimal?.isSome) ∧ t.length ≤ 4300 ∧ 0 < decimalsValue t)
    ⟨fun ⟨a, b, c, d⟩ => ⟨a, b, c, d⟩, fun ⟨a, b, c, d⟩ => ⟨a, b, c, d⟩⟩

instance (t : Text) : Decidable (IsVersion t) :=
  inferInstanceAs (Decidable (_ ∨ _))

theorem leadingDecimals_of_decimal {t : Text} (h : ∀ c ∈ t, c.decimal?.isSome) :
    leadingDecimals t = t.map (·.decimal?.getD 0) := by
  have hall : t.takeWhile (·.decimal?.isSome) = t := List.takeWhile_eq_self_iff.2 h
  rw [leadingDecimals, hall]
  clear hall
  induction t with
  | nil => rfl
  | cons c t ih =>
    obtain ⟨n, hn⟩ := Option.isSome_iff_exists.1 (h c List.mem_cons_self)
    rw [List.filterMap_cons_some hn, List.map_cons, hn, ih fun d hd => h d (List.mem_cons_of_mem _ hd)]
    rfl

/-- The digits at the beginning are all there is only if everything is a decimal digit. -/
theorem decimal_of_length {t : Text} (h : t.length ≤ (leadingDecimals t).length) :
    ∀ c ∈ t, c.decimal?.isSome := by
  have hle : (leadingDecimals t).length ≤ (t.takeWhile (·.decimal?.isSome)).length :=
    List.length_filterMap_le _ _
  have heq := (List.takeWhile_prefix (·.decimal?.isSome) (l := t)).eq_of_length_le
    (Nat.le_trans h hle)
  exact List.takeWhile_eq_self_iff.1 heq

theorem isDigit_of_decimal {c : CodePoint} (h : c.decimal?.isSome) : c.isDigit := by
  rw [CodePoint.isDigit, h, Bool.true_or]

theorem foldl_decimals (t : Text) (n : Nat) :
    0 < t.foldl (fun n c => 10 * n + c.decimal?.getD 0) n ↔
      0 < n ∨ ∃ c ∈ t, c.decimal?.getD 0 ≠ 0 := by
  induction t generalizing n with
  | nil => simp
  | cons c t ih =>
    simp only [List.foldl_cons, ih, List.mem_cons, exists_eq_or_imp, ← or_assoc]
    refine or_congr_left ?_
    omega

/-- Digits write a number above zero if one of them is above zero. -/
theorem decimalsValue_pos_iff {t : Text} :
    0 < decimalsValue t ↔ ¬(t.map (·.decimal?.getD 0)).all (· = 0) := by
  rw [decimalsValue, foldl_decimals]
  simp

/-- **The versions that can be asked for are the ones that pass.** -/
theorem checkVersion_iff {version : Text} : checkVersion version = .ok () ↔ IsVersion version := by
  have hlimit : Json.Numeral.digitLimit = 4300 := rfl
  unfold checkVersion
  constructor
  · intro h
    split at h
    · exact .inl ‹_›
    split at h
    · cases h
    rename_i hdigits
    dsimp only at h
    split at h
    · cases h
    rename_i hcount
    split at h
    · cases h
    rename_i hshort
    split at h
    · cases h
    rename_i hzero
    have hdecimal := decimal_of_length (Nat.not_lt.1 hshort)
    rw [leadingDecimals_of_decimal hdecimal] at hcount hzero
    rw [List.length_map, hlimit, Nat.not_lt] at hcount
    refine .inr ⟨fun hnil => ?_, hdecimal, hcount, decimalsValue_pos_iff.2 hzero⟩
    rw [hnil] at hdigits
    exact hdigits rfl
  · rintro (rfl | ⟨hne, hdecimal, hlength, hpositive⟩)
    · exact if_pos rfl
    split
    · rfl
    have hdigits : version.all CodePoint.isDigit = true :=
      List.all_eq_true.2 fun c hc => isDigit_of_decimal (hdecimal c hc)
    have hempty : version.isEmpty = false := List.isEmpty_eq_false_iff.2 hne
    rw [hdigits, hempty, if_neg (by decide)]
    dsimp only
    rw [leadingDecimals_of_decimal hdecimal, List.length_map, hlimit, if_neg (Nat.not_lt.2 hlength),
      if_neg (Nat.lt_irrefl _), if_neg (decimalsValue_pos_iff.1 hpositive)]

/-- Any other version is refused for its value. -/
theorem checkVersion_refused {version : Text} (h : ¬IsVersion version) :
    ∃ fault, checkVersion version = .error fault ∧ fault.faultClass = .value := by
  rw [← checkVersion_iff] at h
  unfold checkVersion at h ⊢
  split
  · rename_i heq
    exact absurd (if_pos heq) h
  split
  · exact ⟨_, rfl, rfl⟩
  dsimp only
  split
  · exact ⟨_, rfl, rfl⟩
  split
  · exact ⟨_, rfl, rfl⟩
  split
  · exact ⟨_, rfl, rfl⟩
  rename_i hlatest hdigits hcount hshort hzero
  rw [if_neg hlatest, if_neg hdigits] at h
  dsimp only at h
  rw [if_neg hcount, if_neg hshort, if_neg hzero] at h
  exact absurd rfl h

/-! ### Segments -/

/-- The mark that begins a query. -/
def queryMark : CodePoint := CodePoint.ofNat 63

/-- The mark that begins a fragment. -/
def fragmentMark : CodePoint := CodePoint.ofNat 35

/-- The letters and digits of ASCII, the low line, the full stop, the hyphen and the tilde. -/
def IsUnreserved (c : CodePoint) : Prop :=
  (48 ≤ c.val ∧ c.val ≤ 57) ∨ (65 ≤ c.val ∧ c.val ≤ 90) ∨ (97 ≤ c.val ∧ c.val ≤ 122)
    ∨ c.val = 95 ∨ c.val = 46 ∨ c.val = 45 ∨ c.val = 126

/-- A segment of unreserved marks and of octets that are written by two hexadecimal digits. -/
inductive IsSegment : Text → Prop
  | nil : IsSegment []
  | unreserved {c : CodePoint} {t : Text} : IsUnreserved c → IsSegment t → IsSegment (c :: t)
  | escape {a b : CodePoint} {t : Text} : (Json.Reader.hexValue? a).isSome →
    (Json.Reader.hexValue? b).isSome → IsSegment t → IsSegment (Pointer.percent :: a :: b :: t)

theorem hexValue?_escapeDigit {n : Nat} (h : n < 16) :
    Json.Reader.hexValue? (escapeDigit n) = some n := by
  have hval : (escapeDigit n).val = if n < 10 then 48 + n else 55 + n :=
    Utf8.ofNat_val (by split <;> omega)
  rw [Json.Reader.hexValue?, hval]
  by_cases hn : n < 10
  · rw [if_pos hn, if_pos (by omega), Nat.add_sub_cancel_left]
  · rw [if_neg hn, if_neg (by omega), if_neg (by omega), if_pos (by omega), Nat.add_sub_cancel_left]

theorem isUnreserved_iff {b : UInt8} :
    isUnreserved b = true ↔ IsUnreserved (CodePoint.ofNat b.toNat) := by
  have hlt := b.toNat_lt
  rw [IsUnreserved, Utf8.ofNat_val (by omega), isUnreserved]
  simp only [Bool.or_eq_true, Bool.and_eq_true, decide_eq_true_eq]
  omega

theorem isSegment_octet (b : UInt8) {t : Text} (h : IsSegment t) :
    IsSegment (percentEncodeOctet b ++ t) := by
  have hb := b.toNat_lt
  rw [percentEncodeOctet]
  split
  · rename_i hplain
    exact .unreserved (isUnreserved_iff.1 hplain) h
  · refine .escape ?_ ?_ h
    · rw [hexValue?_escapeDigit (by omega)]
      rfl
    · rw [hexValue?_escapeDigit (by omega)]
      rfl

/-- Octets make up a segment. -/
theorem isSegment_octets (octets : List UInt8) : IsSegment (octets.flatMap percentEncodeOctet) := by
  induction octets with
  | nil => exact .nil
  | cons b octets ih => exact isSegment_octet b ih

theorem hexValue?_isSome {c : CodePoint} (h : (Json.Reader.hexValue? c).isSome) :
    (48 ≤ c.val ∧ c.val ≤ 57) ∨ (65 ≤ c.val ∧ c.val ≤ 90) ∨ (97 ≤ c.val ∧ c.val ≤ 122) := by
  unfold Json.Reader.hexValue? at h
  split at h
  · omega
  split at h
  · omega
  split at h
  · omega
  · cases h

/-- A code point of a segment. -/
theorem IsSegment.unreserved_of_mem {t : Text} (h : IsSegment t) :
    ∀ c ∈ t, IsUnreserved c ∨ c = Pointer.percent := by
  induction h with
  | nil => exact nofun
  | unreserved hc _ ih => exact List.forall_mem_cons.2 ⟨.inl hc, ih⟩
  | escape ha hb _ ih =>
    refine List.forall_mem_cons.2 ⟨.inr rfl, List.forall_mem_cons.2 ⟨.inl ?_,
      List.forall_mem_cons.2 ⟨.inl ?_, ih⟩⟩⟩
    · have := hexValue?_isSome ha
      unfold IsUnreserved
      omega
    · have := hexValue?_isSome hb
      unfold IsUnreserved
      omega

/-- The marks that would end a segment or a path. -/
def IsMark (c : CodePoint) : Prop :=
  c = slash ∨ c = queryMark ∨ c = fragmentMark

instance (c : CodePoint) : Decidable (IsMark c) :=
  inferInstanceAs (Decidable (_ ∨ _))

/-- A segment holds no mark that would end it. -/
theorem IsSegment.not_mark {t : Text} (h : IsSegment t) : ∀ c ∈ t, ¬IsMark c := by
  intro c hc hmark
  have hval : c.val = 47 ∨ c.val = 63 ∨ c.val = 35 := by
    rcases hmark with rfl | rfl | rfl
    · exact .inl rfl
    · exact .inr (.inl rfl)
    · exact .inr (.inr rfl)
  rcases h.unreserved_of_mem c hc with hplain | rfl
  · unfold IsUnreserved at hplain
    omega
  · revert hval
    decide

/-! ### Subjects -/

/-- What the reader makes of an octet that is written in a segment. -/
def pieceOf (b : UInt8) : UInt8 ⊕ CodePoint :=
  if isUnreserved b then .inr (CodePoint.ofNat b.toNat) else .inl b

theorem pieces_octet (b : UInt8) {t : Text} {more : List (UInt8 ⊕ CodePoint)}
    (h : Pointer.pieces t = some more) :
    Pointer.pieces (percentEncodeOctet b ++ t) = some (pieceOf b :: more) := by
  have hb := b.toNat_lt
  rw [percentEncodeOctet, pieceOf]
  by_cases hplain : isUnreserved b = true
  · have hne : CodePoint.ofNat b.toNat ≠ Pointer.percent := by
      intro heq
      have := isUnreserved_iff.1 hplain
      rw [heq] at this
      revert this
      unfold IsUnreserved
      decide
    rw [if_pos hplain, if_pos hplain, List.singleton_append, Pointer.pieces.eq_def]
    simp only [if_neg hne, h, Option.map_some]
  · have hsum : 16 * (b.toNat / 16) + b.toNat % 16 = b.toNat := by omega
    rw [if_neg hplain, if_neg hplain]
    show Pointer.pieces (Pointer.percent :: escapeDigit (b.toNat / 16) :: escapeDigit (b.toNat % 16)
      :: t) = _
    rw [Pointer.pieces.eq_def]
    simp only [if_true, hexValue?_escapeDigit (show b.toNat / 16 < 16 by omega),
      hexValue?_escapeDigit (show b.toNat % 16 < 16 by omega), h, Option.bind_eq_bind,
      Option.bind_some, Option.pure_def, hsum, UInt8.ofNat_toNat]

theorem pieces_octets (octets : List UInt8) :
    Pointer.pieces (octets.flatMap percentEncodeOctet) = some (octets.map pieceOf) := by
  induction octets with
  | nil => rfl
  | cons b octets ih => exact pieces_octet b ih

theorem assemble_octets (held octets : List UInt8) (more : List (UInt8 ⊕ CodePoint)) :
    Pointer.assemble held (octets.map .inl ++ more) = Pointer.assemble (held ++ octets) more := by
  induction octets generalizing held with
  | nil => rw [List.map_nil, List.nil_append, List.append_nil]
  | cons b octets ih =>
    rw [List.map_cons, List.cons_append, Pointer.assemble, ih, List.append_assoc]
    rfl

/-- The octets of a code point are escaped, all of them, or it is unreserved and stands for
itself. -/
theorem pieceOf_encodePoint {c : CodePoint} (h : c.isSurrogate = false) :
    (Utf8.encodePoint c).map pieceOf = [.inr c] ∨
      (Utf8.encodePoint c).map pieceOf = (Utf8.encodePoint c).map .inl := by
  have hkept : Utf8.isKept c = false := by
    simp only [CodePoint.isSurrogate, Bool.and_eq_false_iff, decide_eq_false_iff_not] at h
    simp only [Utf8.isKept, Bool.and_eq_false_iff, decide_eq_false_iff_not]
    omega
  have hoctets : Utf8.octetsOf c = Utf8.encodePoint c := by
    rw [Utf8.octetsOf, hkept, if_neg (by decide)]
  by_cases hc : ∃ b ∈ Utf8.encodePoint c, isUnreserved b = true
  · obtain ⟨b, hb, hplain⟩ := hc
    have hascii : b.toNat < 0x80 := by
      have hval := isUnreserved_iff.1 hplain
      have hlt := b.toNat_lt
      rw [IsUnreserved, Utf8.ofNat_val (by omega)] at hval
      omega
    have heq : c = CodePoint.ofNat b.toNat :=
      Utf8.octetsOf_of_mem_ascii (hoctets.symm ▸ hb) hascii
    rw [← hoctets, heq, Utf8.octetsOf_ascii hascii, UInt8.ofNat_toNat]
    refine .inl ?_
    rw [List.map_singleton, pieceOf, if_pos hplain]
  · refine .inr (List.map_congr_left fun b hb => ?_)
    rw [pieceOf, if_neg fun hplain => hc ⟨b, hb, hplain⟩]

/-- The pieces of a text are put together again, whatever text the octets held so far spell. -/
theorem assemble_pieces {s t : Text} (hs : s.IsScalar) (ht : t.IsScalar) :
    Pointer.assemble (s.flatMap Utf8.encodePoint) ((t.flatMap Utf8.encodePoint).map pieceOf) =
      some (s ++ t) := by
  induction t generalizing s with
  | nil =>
    show (Utf8.decode _).toOption = _
    rw [Utf8.decode_flatMap hs, List.append_nil]
    rfl
  | cons c t ih =>
    have hc := ht c List.mem_cons_self
    have hrest : Text.IsScalar t := fun d hd => ht d (List.mem_cons_of_mem _ hd)
    rw [List.flatMap_cons, List.map_append]
    rcases pieceOf_encodePoint hc with hpieces | hpieces
    · -- an unreserved code point ends the octets held
      have hafter := ih Text.isScalar_nil hrest
      rw [hpieces, List.singleton_append, Pointer.assemble, Utf8.decode_flatMap hs]
      rw [List.flatMap_nil, List.nil_append] at hafter
      rw [hafter]
      rfl
    · have hlonger : Text.IsScalar (s ++ [c]) :=
        hs.append fun d hd => List.mem_singleton.1 hd ▸ hc
      have hafter := ih hlonger hrest
      rw [List.flatMap_append, List.flatMap_singleton, List.append_assoc] at hafter
      rw [hpieces, assemble_octets]
      exact hafter

/-- **The segment of a subject is read as the subject.** -/
theorem percentDecode_segment {subject : Text} (h : subject.IsScalar) :
    ∃ segment, percentEncode subject = .ok segment ∧ IsSegment segment ∧
      Pointer.percentDecode segment = some subject := by
  refine ⟨(subject.flatMap Utf8.encodePoint).flatMap percentEncodeOctet, ?_,
    isSegment_octets _, ?_⟩
  · rw [percentEncode, Utf8.encode_of_isScalar h]
  · rw [Pointer.percentDecode, pieces_octets]
    exact assemble_pieces Text.isScalar_nil h

/-! ### Addresses -/

/-- A path parts at its slashes into the segments for a version of a subject, and no query and no
fragment follows. -/
structure LeadsTo (path subject version : Text) : Prop where
  segments : ∃ segment, IsSegment segment ∧ Pointer.percentDecode segment = some subject ∧
    Text.splitAt slash path = [[], "subjects", segment, "versions", version, "schema"]
  no_query : queryMark ∉ path
  no_fragment : fragmentMark ∉ path

/-- A path tells the subject and the version that it leads to. -/
theorem LeadsTo.unique {path subject version subject' version' : Text}
    (h : LeadsTo path subject version) (h' : LeadsTo path subject' version') :
    subject = subject' ∧ version = version' := by
  obtain ⟨segment, -, hsubject, hsplit⟩ := h.segments
  obtain ⟨segment', -, hsubject', hsplit'⟩ := h'.segments
  rw [hsplit] at hsplit'
  obtain ⟨-, -, rfl, -, rfl, -⟩ : _ ∧ _ ∧ segment = segment' ∧ _ ∧ version = version' ∧ _ := by
    simpa only [List.cons.injEq] using hsplit'
  rw [hsubject] at hsubject'
  exact ⟨Option.some.inj hsubject', rfl⟩

/-- The slashes of an address are the ones between its segments. -/
theorem splitAt_path {segment version : Text} (hs : slash ∉ segment) (hv : slash ∉ version) :
    Text.splitAt slash (Text.ofString "/subjects/" ++ segment ++ Text.ofString "/versions/"
        ++ version ++ Text.ofString "/schema") =
      [[], "subjects", segment, "versions", version, "schema"] := by
  have hpath : Text.ofString "/subjects/" ++ segment ++ Text.ofString "/versions/" ++ version
        ++ Text.ofString "/schema" =
      [] ++ slash :: (Text.ofString "subjects" ++ slash :: (segment ++ slash ::
        (Text.ofString "versions" ++ slash :: (version ++ slash :: Text.ofString "schema")))) := by
    simp only [List.append_assoc]
    rfl
  rw [hpath, Text.splitAt_append, Text.splitAt_append, Text.splitAt_append, Text.splitAt_append,
    Text.splitAt_append, Text.splitAt_of_not_mem hs, Text.splitAt_of_not_mem hv]
  rfl

/-- A decimal digit is no mark that would end a segment. -/
theorem not_mark_of_decimal {c : CodePoint} (h : c.decimal?.isSome) : ¬IsMark c := by
  rintro (rfl | rfl | rfl) <;> revert h <;> decide

theorem IsVersion.not_mark {version : Text} (h : IsVersion version) : ∀ c ∈ version, ¬IsMark c := by
  rcases h with rfl | hnumber
  · decide
  · exact fun c hc => not_mark_of_decimal (hnumber.decimal c hc)

theorem leadsTo_path {subject segment version : Text} (hs : IsSegment segment)
    (hsubject : Pointer.percentDecode segment = some subject) (hv : IsVersion version) :
    LeadsTo (Text.ofString "/subjects/" ++ segment ++ Text.ofString "/versions/" ++ version
      ++ Text.ofString "/schema") subject version := by
  have hmarks : ∀ c, IsMark c → c ≠ slash → c ∉ Text.ofString "/subjects/" ++ segment
      ++ Text.ofString "/versions/" ++ version ++ Text.ofString "/schema" := by
    intro c hmark hslash hc
    have hfixed : ∀ t ∈ [Text.ofString "/subjects/", Text.ofString "/versions/",
        Text.ofString "/schema"], ∀ d ∈ t, IsMark d → d = slash := by decide
    simp only [List.mem_append] at hc
    rcases hc with (((hc | hc) | hc) | hc) | hc
    · exact hslash (hfixed _ (by simp) c hc hmark)
    · exact hs.not_mark c hc hmark
    · exact hslash (hfixed _ (by simp) c hc hmark)
    · exact hv.not_mark c hc hmark
    · exact hslash (hfixed _ (by simp) c hc hmark)
  refine ⟨⟨segment, hs, hsubject, splitAt_path (fun hc => ?_) fun hc => ?_⟩,
    hmarks _ (.inr (.inl rfl)) (by decide), hmarks _ (.inr (.inr rfl)) (by decide)⟩
  · exact hs.not_mark _ hc (.inl rfl)
  · exact hv.not_mark _ hc (.inl rfl)

/-- There is an address for every version that can be asked for, and it leads to it. -/
theorem schemaUrl_ok (client : Client) {subject version : Text} (hs : subject.IsScalar)
    (hv : IsVersion version) :
    ∃ path, client.schemaUrl subject version = .ok (client.base ++ path) ∧
      LeadsTo path subject version := by
  obtain ⟨segment, hencode, hsegment, hdecode⟩ := percentDecode_segment hs
  refine ⟨_, ?_, leadsTo_path hsegment hdecode hv⟩
  rw [Client.schemaUrl, checkVersion_iff.2 hv, hencode]
  simp only [List.append_assoc]
  rfl

/-- For any other version there is none, and nothing is asked of the registry. -/
theorem schemaUrl_refused (client : Client) (subject : Text) {version : Text}
    (hv : ¬IsVersion version) :
    ∃ fault, client.schemaUrl subject version = .error fault ∧ fault.faultClass = .value ∧
      ∀ network, client.fetch network subject version = (.error fault, []) := by
  obtain ⟨fault, hfault, hclass⟩ := checkVersion_refused hv
  have hurl : client.schemaUrl subject version = .error fault := by
    rw [Client.schemaUrl, hfault]
    rfl
  refine ⟨fault, hurl, hclass, fun network => ?_⟩
  rw [Client.fetch, hurl]

/-- **Addresses identify a subject and a version.**  There is one exactly for the versions that can
be asked for, any other version is refused for its value and without a request, the address parts
into the segments it was built from, and two addresses are equal only for the same subject and the
same version. -/
theorem addresses_identify (url : Text) (timeout : Json) {subject subject' : Text}
    (hs : subject.IsScalar) (hs' : subject'.IsScalar) (version version' : Json) :
    ((∃ address, (Client.ofUrl url timeout).schemaUrl subject version.bare = .ok address) ↔
      IsVersion version.bare) ∧
    (¬IsVersion version.bare → ∃ fault,
      (Client.ofUrl url timeout).schemaUrl subject version.bare = .error fault ∧
        fault.faultClass = .value ∧
        ∀ network, (Client.ofUrl url timeout).fetch network subject version.bare =
          (.error fault, [])) ∧
    (∀ address, (Client.ofUrl url timeout).schemaUrl subject version.bare = .ok address →
      (∃ path, address = (Client.ofUrl url timeout).base ++ path ∧
        LeadsTo path subject version.bare) ∧
      ∀ address', (Client.ofUrl url timeout).schemaUrl subject' version'.bare = .ok address' →
        (address = address' ↔ subject = subject' ∧ version.bare = version'.bare)) := by
  -- an address shows that the version can be asked for, and so where it leads
  have hleads : ∀ {s v address : Text}, s.IsScalar →
      (Client.ofUrl url timeout).schemaUrl s v = .ok address → IsVersion v ∧
        ∃ path, address = (Client.ofUrl url timeout).base ++ path ∧ LeadsTo path s v := by
    intro s v address hscalar haddress
    by_cases hv : IsVersion v
    · obtain ⟨path, hpath, hleads⟩ := schemaUrl_ok (Client.ofUrl url timeout) hscalar hv
      rw [hpath] at haddress
      exact ⟨hv, path, (Except.ok.inj haddress).symm, hleads⟩
    · obtain ⟨fault, hfault, -⟩ := schemaUrl_refused (Client.ofUrl url timeout) s hv
      rw [hfault] at haddress
      cases haddress
  refine ⟨⟨fun ⟨address, haddress⟩ => (hleads hs haddress).1, fun hv => ?_⟩,
    schemaUrl_refused _ subject, fun address haddress => ⟨(hleads hs haddress).2, ?_⟩⟩
  · obtain ⟨path, hpath, -⟩ := schemaUrl_ok (Client.ofUrl url timeout) hs hv
    exact ⟨_, hpath⟩
  · intro address' haddress'
    obtain ⟨-, path, rfl, hpath⟩ := hleads hs haddress
    obtain ⟨-, path', rfl, hpath'⟩ := hleads hs' haddress'
    constructor
    · intro heq
      obtain rfl : path = path' := List.append_cancel_left heq
      exact hpath.unique hpath'
    · rintro ⟨rfl, heq⟩
      rw [heq, haddress'] at haddress
      exact Except.ok.inj haddress.symm

/-- The address of a subject with a slash, a mark of a query and a letter beyond ASCII in it, and of
another one without them. -/
theorem addresses_identify_orders :
    (Text.ofString "orders/é?").IsScalar ∧ (Text.ofString "orders").IsScalar ∧
      (Client.ofUrl "http://registry/" (.int 10)).schemaUrl "orders/é?" (Json.int 7).bare =
        .ok "http://registry/subjects/orders%2F%C3%A9%3F/versions/7/schema" ∧
      (Client.ofUrl "http://registry/" (.int 10)).schemaUrl "orders" (Json.int 7).bare =
        .ok "http://registry/subjects/orders/versions/7/schema" ∧
      Text.ofString "http://registry/subjects/orders%2F%C3%A9%3F/versions/7/schema" ≠
        Text.ofString "http://registry/subjects/orders/versions/7/schema" :=
  have hs : (Text.ofString "orders/é?").IsScalar := by decide
  have hs' : (Text.ofString "orders").IsScalar := by decide
  have haddress : (Client.ofUrl "http://registry/" (.int 10)).schemaUrl "orders/é?" (Json.int 7).bare =
      .ok "http://registry/subjects/orders%2F%C3%A9%3F/versions/7/schema" := rfl
  have haddress' : (Client.ofUrl "http://registry/" (.int 10)).schemaUrl "orders" (Json.int 7).bare =
      .ok "http://registry/subjects/orders/versions/7/schema" := rfl
  have hequal := (addresses_identify "http://registry/" (.int 10) hs hs' (.int 7) (.int 7)).2.2 _
    haddress |>.2 _ haddress'
  ⟨hs, hs', haddress, haddress', fun h => absurd (hequal.1 h).1 (by decide)⟩

end Registry

end AvroJsonSchema
