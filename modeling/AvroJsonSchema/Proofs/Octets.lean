import AvroJsonSchema.Files.Path

/-!
# Names of files and their octets

A name of a file is any octets.  As a text it holds the code points that the octets spell and keeps
every other octet as a surrogate, so nothing is lost, and a name that was told by its octets once is
told by them again as the same text.

* **`Utf8.encodeKeeping_decodeKeeping`**: the octets of the text of any octets are those octets.
* **`Path.nameOf_nameOf`**, **`Path.nameOf_append`**: the name that a component stands for.
* **`Path.IsName`**: a name that can stand in a directory.  **`Path.isName_nameOf`**: what any
  component but the two special ones stands for is one.
-/

namespace AvroJsonSchema

namespace Utf8

/-! ### What the machine holds -/

/-- A number without some groups of six bits at its end. -/
def leading : Nat → Nat → Nat
  | 0, n => n
  | k + 1, n => leading k n / 64

/-- The last octets of a number of some size, six bits each. -/
def tails : Nat → Nat → List UInt8
  | 0, _ => []
  | k + 1, n => UInt8.ofNat (0x80 + leading k n % 64) :: tails k n

/-- The octets of one code point, which may be a kept one. -/
def octetsOf (c : CodePoint) : List UInt8 :=
  if isKept c then [UInt8.ofNat (c.val - 0xDC00)] else encodePoint c

/-- Inside a code point the octets held begin every code point that the value and the next octet
can still lead to. -/
structure Begins (held : List UInt8) (owed low high value : Nat) : Prop where
  owed_pos : 0 < owed
  low_le : 0x80 ≤ low
  high_le : high ≤ 0xBF
  spells : ∀ n, leading owed n = value → low ≤ 0x80 + leading (owed - 1) n % 64 →
    0x80 + leading (owed - 1) n % 64 ≤ high →
    n < 0x110000 ∧ octetsOf (CodePoint.ofNat n) = held ++ tails owed n

/-- The octets held in a state of the machine. -/
def Holds : State → List UInt8 → Prop
  | .between, held => held = []
  | .inside _ _ owed low high value, held =>
    (∀ b ∈ held, 0x80 ≤ b.toNat) ∧ Begins held owed low high value

theorem ofNat_val {n : Nat} (h : n < 0x110000) : (CodePoint.ofNat n).val = n := by
  rw [CodePoint.ofNat, dif_pos h]

theorem octetsOf_ofNat {n : Nat} (h : n < 0x110000) (hk : n < 0xDC80 ∨ 0xDCFF < n) :
    octetsOf (CodePoint.ofNat n) = encodePoint (CodePoint.ofNat n) := by
  rw [octetsOf, if_neg]
  simp only [isKept, ofNat_val h, Bool.and_eq_true, decide_eq_true_eq]
  omega

theorem octetsOf_ascii {n : Nat} (h : n < 0x80) :
    octetsOf (CodePoint.ofNat n) = [UInt8.ofNat n] := by
  rw [octetsOf_ofNat (by omega) (by omega), encodePoint, ofNat_val (by omega), if_pos h]

theorem octetsOf_kept {b : UInt8} (h : 0x80 ≤ b.toNat) : octetsOf (kept b) = [b] := by
  have hb := b.toNat_lt
  have hv : (kept b).val = 0xDC00 + b.toNat := ofNat_val (by omega)
  rw [octetsOf, if_pos]
  · rw [hv, Nat.add_sub_cancel_left, UInt8.ofNat_toNat]
  · simp only [isKept, hv, Bool.and_eq_true, decide_eq_true_eq]
    omega

theorem encodeKeeping_cons (c : CodePoint) (t : Text) :
    encodeKeeping (c :: t) = octetsOf c ++ encodeKeeping t :=
  rfl

theorem encodeKeeping_append (s t : Text) :
    encodeKeeping (s ++ t) = encodeKeeping s ++ encodeKeeping t :=
  List.flatMap_append

theorem encodeKeeping_map_kept {held : List UInt8} (h : ∀ b ∈ held, 0x80 ≤ b.toNat) :
    encodeKeeping (held.map kept) = held := by
  induction held with
  | nil => rfl
  | cons b held ih =>
    rw [List.map_cons, encodeKeeping_cons, octetsOf_kept (h b List.mem_cons_self),
      ih fun b' hb' => h b' (List.mem_cons_of_mem _ hb'), List.singleton_append]

/-! ### One octet -/

/-- An octet is the one of a number if it is that number. -/
theorem eq_ofNat {b : UInt8} {n : Nat} (h : n = b.toNat) : UInt8.ofNat n = b := by
  rw [h, UInt8.ofNat_toNat]

theorem begins_two {b : UInt8} (h : 0xC2 ≤ b.toNat ∧ b.toNat ≤ 0xDF) :
    Begins [b] 1 0x80 0xBF (b.toNat - 0xC0) := by
  refine ⟨by omega, by omega, by omega, fun n (hn : n / 64 = _) _ _ => ?_⟩
  have hlt : n < 0x110000 := by omega
  have h1 : ¬n < 0x80 := by omega
  have h2 : n < 0x800 := by omega
  have hb : UInt8.ofNat (0xC0 + n / 64) = b := eq_ofNat (by omega)
  refine ⟨hlt, ?_⟩
  rw [octetsOf_ofNat hlt (by omega), encodePoint, ofNat_val hlt]
  simp only [if_neg h1, if_pos h2, hb, tails, leading, List.singleton_append]

theorem begins_three {b : UInt8} {low high : Nat} (h : 0xE0 ≤ b.toNat ∧ b.toNat ≤ 0xEF)
    (hlow : 0x80 ≤ low) (hhigh : high ≤ 0xBF) (hfirst : b.toNat = 0xE0 → 0xA0 ≤ low)
    (hsurrogate : b.toNat = 0xED → high ≤ 0x9F) : Begins [b] 2 low high (b.toNat - 0xE0) := by
  refine ⟨by omega, hlow, hhigh,
    fun n (hn : n / 64 / 64 = _) (hl : _ ≤ 0x80 + n / 64 % 64) (hh : 0x80 + n / 64 % 64 ≤ _) => ?_⟩
  have hlt : n < 0x110000 := by omega
  have h1 : ¬n < 0x80 := by omega
  have h2 : ¬n < 0x800 := by omega
  have h3 : n < 0x10000 := by omega
  have hb : UInt8.ofNat (0xE0 + n / 4096) = b := eq_ofNat (by omega)
  refine ⟨hlt, ?_⟩
  rw [octetsOf_ofNat hlt (by omega), encodePoint, ofNat_val hlt]
  simp only [if_neg h1, if_neg h2, if_pos h3, hb, tails, leading, List.singleton_append]

theorem begins_four {b : UInt8} {low high : Nat} (h : 0xF0 ≤ b.toNat ∧ b.toNat ≤ 0xF4)
    (hlow : 0x80 ≤ low) (hhigh : high ≤ 0xBF) (hfirst : b.toNat = 0xF0 → 0x90 ≤ low)
    (hlast : b.toNat = 0xF4 → high ≤ 0x8F) : Begins [b] 3 low high (b.toNat - 0xF0) := by
  refine ⟨by omega, hlow, hhigh, fun n (hn : n / 64 / 64 / 64 = _)
    (hl : _ ≤ 0x80 + n / 64 / 64 % 64) (hh : 0x80 + n / 64 / 64 % 64 ≤ _) => ?_⟩
  have hlt : n < 0x110000 := by omega
  have h1 : ¬n < 0x80 := by omega
  have h2 : ¬n < 0x800 := by omega
  have h3 : ¬n < 0x10000 := by omega
  have hb : UInt8.ofNat (0xF0 + n / 262144) = b := eq_ofNat (by omega)
  refine ⟨hlt, ?_⟩
  rw [octetsOf_ofNat hlt (by omega), encodePoint, ofNat_val hlt]
  simp only [if_neg h1, if_neg h2, if_neg h3, hb, tails, leading, List.singleton_append,
    Nat.div_div_eq_div_mul]

/-- The first octet of a code point begins those that it leads to. -/
theorem holds_of_lead {place : Nat} {b : UInt8} {state : State} (hb : 0x80 ≤ b.toNat)
    (h : lead? place b = some state) : Holds state [b] := by
  have held : ∀ b' ∈ [b], 0x80 ≤ b'.toNat := List.forall_mem_singleton.2 hb
  unfold lead? at h
  simp only at h
  split at h
  · obtain rfl := Option.some.inj h
    exact ⟨held, begins_two ‹_›⟩
  split at h
  · have heq : b.toNat - 0xE0 = 0 := by omega
    obtain rfl := Option.some.inj h
    exact ⟨held, heq ▸ begins_three (by omega) (by omega) (by omega) (by omega) (by omega)⟩
  split at h
  · have heq : b.toNat - 0xE0 = 13 := by omega
    obtain rfl := Option.some.inj h
    exact ⟨held, heq ▸ begins_three (by omega) (by omega) (by omega) (by omega) (by omega)⟩
  split at h
  · obtain rfl := Option.some.inj h
    exact ⟨held, begins_three (by omega) (by omega) (by omega) (by omega) (by omega)⟩
  split at h
  · have heq : b.toNat - 0xF0 = 0 := by omega
    obtain rfl := Option.some.inj h
    exact ⟨held, heq ▸ begins_four (by omega) (by omega) (by omega) (by omega) (by omega)⟩
  split at h
  · obtain rfl := Option.some.inj h
    exact ⟨held, begins_four (by omega) (by omega) (by omega) (by omega) (by omega)⟩
  split at h
  · have heq : b.toNat - 0xF0 = 4 := by omega
    obtain rfl := Option.some.inj h
    exact ⟨held, heq ▸ begins_four (by omega) (by omega) (by omega) (by omega) (by omega)⟩
  · cases h

/-- An octet that goes on with a code point is held, and one that ends it has spelled it. -/
theorem Begins.next {held : List UInt8} {owed low high value : Nat} {b : UInt8}
    (h : Begins held owed low high value) (hb : low ≤ b.toNat ∧ b.toNat ≤ high) :
    if owed = 1 then octetsOf (CodePoint.ofNat (value * 64 + (b.toNat - 0x80))) = held ++ [b]
    else Begins (held ++ [b]) (owed - 1) 0x80 0xBF (value * 64 + (b.toNat - 0x80)) := by
  have hlow := h.low_le
  have hhigh := h.high_le
  obtain ⟨k, rfl⟩ : ∃ k, owed = k + 1 := ⟨owed - 1, by have := h.owed_pos; omega⟩
  -- a number that the longer beginning can lead to, the shorter one could lead to as well
  have hspells : ∀ n, leading k n = value * 64 + (b.toNat - 0x80) →
      n < 0x110000 ∧ octetsOf (CodePoint.ofNat n) = held ++ b :: tails k n := by
    intro n hn
    have hmod : 0x80 + leading k n % 64 = b.toNat := by omega
    have hdiv : leading (k + 1) n = value := by
      rw [leading]
      omega
    have := h.spells n hdiv (by rw [Nat.add_sub_cancel]; omega) (by rw [Nat.add_sub_cancel]; omega)
    rwa [tails, eq_ofNat hmod] at this
  split
  · obtain rfl : k = 0 := by omega
    exact (hspells _ rfl).2
  · refine ⟨by omega, by omega, by omega, fun n hn _ _ => ?_⟩
    rw [List.append_assoc]
    exact hspells n hn

/-- What the machine does to an octet, by what it holds. -/
theorem holds_advance {state : State} {held : List UInt8} (hs : Holds state held) (b : UInt8) :
    match advance 0 state b with
    | .done c => octetsOf c = held ++ [b]
    | .to state => Holds state (held ++ [b])
    | .refused => 0x80 ≤ b.toNat ∨ state ≠ .between := by
  cases state with
  | between =>
    obtain rfl : held = [] := hs
    by_cases hb : b.toNat < 0x80
    · simp only [advance, if_pos hb]
      rw [octetsOf_ascii hb, UInt8.ofNat_toNat, List.nil_append]
    · simp only [advance, if_neg hb]
      cases hlead : lead? 0 b with
      | none => exact .inl (by omega)
      | some state => exact holds_of_lead (by omega) hlead
  | inside first start owed low high value =>
    obtain ⟨hheld, hbegins⟩ := hs
    by_cases hb : low ≤ b.toNat ∧ b.toNat ≤ high
    · have hnext := hbegins.next hb
      simp only [advance, if_pos hb]
      by_cases howed : owed = 1
      · simp only [if_pos howed] at hnext ⊢
        exact hnext
      · simp only [if_neg howed] at hnext ⊢
        refine ⟨fun b' hb' => ?_, hnext⟩
        rcases List.mem_append.1 hb' with hb' | hb'
        · exact hheld b' hb'
        · rw [List.mem_singleton.1 hb']
          exact Nat.le_trans hbegins.low_le hb.1
    · simp only [advance, if_neg hb]
      exact .inr State.noConfusion

/-! ### Octets and back -/

theorem octets_of_held {state : State} {held : List UInt8} (hs : Holds state held) :
    encodeKeeping (held.map kept) = held := by
  cases state with
  | between =>
    obtain rfl : held = [] := hs
    rfl
  | inside first start owed low high value => exact encodeKeeping_map_kept hs.1

/-- Between two code points nothing is held. -/
theorem holds_between : Holds .between [] :=
  rfl

theorem encodeKeeping_decodeKeepingFrom {state : State} {held : List UInt8} (hs : Holds state held)
    (bytes : List UInt8) : encodeKeeping (decodeKeepingFrom state held bytes) = held ++ bytes := by
  induction bytes generalizing state held with
  | nil => rw [decodeKeepingFrom, octets_of_held hs, List.append_nil]
  | cons b bytes ih =>
    -- an octet that takes no part in the code point held is looked at anew, and then alone
    have hdone : ∀ c, octetsOf c = [b] →
        encodeKeeping (c :: decodeKeepingFrom .between [] bytes) = b :: bytes := by
      intro c hc
      rw [encodeKeeping_cons, hc, ih holds_between]
      rfl
    have hadvance := holds_advance hs b
    have hanew := holds_advance holds_between b
    rw [decodeKeepingFrom]
    cases ha : advance 0 state b with
    | done c =>
      rw [ha] at hadvance
      rw [encodeKeeping_cons, show octetsOf c = _ from hadvance, ih holds_between, List.nil_append,
        List.append_assoc, List.singleton_append]
    | «to» state' =>
      rw [ha] at hadvance
      rw [ih hadvance, List.append_assoc, List.singleton_append]
    | refused =>
      rw [encodeKeeping_append, octets_of_held hs]
      refine congrArg (held ++ ·) ?_
      cases hb : advance 0 .between b with
      | done c =>
        rw [hb] at hanew
        exact hdone c hanew
      | «to» state' =>
        rw [hb] at hanew
        exact ih hanew
      | refused =>
        rw [hb] at hanew
        exact hdone (kept b) (octetsOf_kept (hanew.resolve_right (· rfl)))

/-- The octets of the text of any octets are those octets. -/
theorem encodeKeeping_decodeKeeping (bytes : List UInt8) :
    encodeKeeping (decodeKeeping bytes) = bytes :=
  encodeKeeping_decodeKeepingFrom holds_between bytes

theorem decodeKeepingFrom_ascii {ascii : List UInt8} (h : ∀ b ∈ ascii, b.toNat < 0x80) :
    decodeKeepingFrom .between [] ascii = ascii.map fun b => CodePoint.ofNat b.toNat := by
  induction ascii with
  | nil => rfl
  | cons b ascii ih =>
    have hb := h b List.mem_cons_self
    rw [decodeKeepingFrom, advance]
    simp only [if_pos hb, List.map_cons]
    rw [ih fun b' hb' => h b' (List.mem_cons_of_mem _ hb')]

/-- Octets of ASCII end whatever stands before them. -/
theorem decodeKeepingFrom_append_ascii {state : State} {held : List UInt8} (hs : Holds state held)
    (bytes : List UInt8) {ascii : List UInt8} (h : ∀ b ∈ ascii, b.toNat < 0x80) :
    decodeKeepingFrom state held (bytes ++ ascii) =
      decodeKeepingFrom state held bytes ++ ascii.map fun b => CodePoint.ofNat b.toNat := by
  induction bytes generalizing state held with
  | nil =>
    cases state with
    | between =>
      obtain rfl : held = [] := hs
      exact decodeKeepingFrom_ascii h
    | inside first start owed low high value =>
      cases ascii with
      | nil => exact (List.append_nil _).symm
      | cons b ascii =>
        have hb := h b List.mem_cons_self
        have hout : ¬(low ≤ b.toNat ∧ b.toNat ≤ high) := by
          have := hs.2.low_le
          omega
        simp only [List.nil_append, decodeKeepingFrom, advance, if_neg hout, if_pos hb, List.map_cons]
        rw [decodeKeepingFrom_ascii fun b' hb' => h b' (List.mem_cons_of_mem _ hb')]
  | cons b bytes ih =>
    have hadvance := holds_advance hs b
    have hanew := holds_advance holds_between b
    rw [List.cons_append, decodeKeepingFrom, decodeKeepingFrom]
    cases ha : advance 0 state b with
    | done c =>
      exact congrArg (c :: ·) (ih holds_between)
    | «to» state' =>
      rw [ha] at hadvance
      exact ih hadvance
    | refused =>
      rw [List.append_assoc]
      refine congrArg (held.map kept ++ ·) ?_
      cases hb : advance 0 .between b with
      | done c => exact congrArg (c :: ·) (ih holds_between)
      | «to» state' =>
        rw [hb] at hanew
        exact ih hanew
      | refused => exact congrArg (kept b :: ·) (ih holds_between)

/-! ### ASCII -/

theorem ofNat_self (c : CodePoint) : CodePoint.ofNat c.val = c := by
  rw [CodePoint.ofNat, dif_pos c.isLt]

theorem octetsOf_ne_nil (c : CodePoint) : octetsOf c ≠ [] := by
  unfold octetsOf encodePoint
  simp only
  repeat' split
  all_goals exact List.cons_ne_nil _ _

/-- An octet of ASCII is the only one of its code point. -/
theorem octetsOf_of_mem_ascii {c : CodePoint} {b : UInt8} (h : b ∈ octetsOf c)
    (hb : b.toNat < 0x80) : c = CodePoint.ofNat b.toNat := by
  have hlt := c.isLt
  by_cases hc : c.val < 0x80
  · rw [← ofNat_self c, octetsOf_ascii hc, List.mem_singleton] at h
    rw [h, UInt8.toNat_ofNat', Nat.mod_eq_of_lt (by omega), ofNat_self]
  · -- all octets of the other code points are from 0x80 on
    refine absurd hb ?_
    unfold octetsOf encodePoint at h
    simp only [if_neg hc] at h
    split at h
    · rename_i hk
      simp only [isKept, Bool.and_eq_true, decide_eq_true_eq] at hk
      rw [List.mem_singleton.1 h, UInt8.toNat_ofNat']
      omega
    · repeat' split at h
      all_goals
        simp only [List.mem_cons, List.not_mem_nil, or_false] at h
        rcases h with rfl | rfl | rfl | rfl <;> rw [UInt8.toNat_ofNat'] <;> omega

/-- A text whose octets are ASCII is spelled by them. -/
theorem eq_of_encodeKeeping_ascii {t : Text} (h : ∀ b ∈ encodeKeeping t, b.toNat < 0x80) :
    t = (encodeKeeping t).map fun b => CodePoint.ofNat b.toNat := by
  induction t with
  | nil => rfl
  | cons c t ih =>
    rw [encodeKeeping_cons] at h ⊢
    obtain ⟨b, rest, hrest⟩ := List.exists_cons_of_ne_nil (octetsOf_ne_nil c)
    have hb : b.toNat < 0x80 := h b (by rw [hrest]; exact List.mem_append_left _ List.mem_cons_self)
    have hc := octetsOf_of_mem_ascii (hrest ▸ List.mem_cons_self) hb
    rw [hc, octetsOf_ascii hb, List.singleton_append, List.map_cons, UInt8.ofNat_toNat,
      ← ih fun b' hb' => h b' (List.mem_append_right _ hb')]

theorem mem_of_mem_encodeKeeping_ascii {t : Text} {b : UInt8} (h : b ∈ encodeKeeping t)
    (hb : b.toNat < 0x80) : CodePoint.ofNat b.toNat ∈ t := by
  obtain ⟨c, hc, hbc⟩ := List.mem_flatMap.1 h
  exact octetsOf_of_mem_ascii hbc hb ▸ hc

theorem mem_encodeKeeping_of_mem_ascii {t : Text} {c : CodePoint} (h : c ∈ t) (hc : c.val < 0x80) :
    UInt8.ofNat c.val ∈ encodeKeeping t := by
  refine List.mem_flatMap.2 ⟨c, h, ?_⟩
  show _ ∈ octetsOf c
  have := octetsOf_ascii hc
  rw [ofNat_self] at this
  rw [this]
  exact List.mem_singleton_self _

/-- The octets of a text of ASCII. -/
theorem encodeKeeping_ascii {t : Text} (h : ∀ c ∈ t, c.val < 0x80) :
    encodeKeeping t = t.map fun c => UInt8.ofNat c.val := by
  induction t with
  | nil => rfl
  | cons c t ih =>
    have hc := octetsOf_ascii (h c List.mem_cons_self)
    rw [ofNat_self] at hc
    rw [encodeKeeping_cons, hc, ih fun c' hc' => h c' (List.mem_cons_of_mem _ hc'), List.map_cons]
    rfl

/-- Each code point takes an octet at least. -/
theorem length_le_encodeKeeping (t : Text) : t.length ≤ (encodeKeeping t).length := by
  induction t with
  | nil => exact Nat.le_refl _
  | cons c t ih =>
    have := List.length_pos_iff.2 (octetsOf_ne_nil c)
    rw [encodeKeeping_cons, List.length_append, List.length_cons]
    omega

end Utf8

namespace Path

open Utf8

/-! ### Names -/

theorem encodeKeeping_nameOf (component : Text) :
    encodeKeeping (nameOf component) = encodeKeeping component :=
  encodeKeeping_decodeKeeping _

theorem nameOf_nameOf (component : Text) : nameOf (nameOf component) = nameOf component := by
  show decodeKeeping (encodeKeeping (nameOf component)) = _
  rw [encodeKeeping_nameOf]
  rfl

/-- A name with an ending of ASCII. -/
theorem nameOf_append {ending : Text} (h : ∀ c ∈ ending, c.val < 0x80) (stem : Text) :
    nameOf (stem ++ ending) = nameOf stem ++ ending := by
  have hb : ∀ b ∈ encodeKeeping ending, b.toNat < 0x80 := by
    rw [encodeKeeping_ascii h]
    intro b hb
    obtain ⟨c, hc, rfl⟩ := List.mem_map.1 hb
    have := h c hc
    rw [UInt8.toNat_ofNat']
    omega
  show decodeKeeping (encodeKeeping (stem ++ ending)) = _
  rw [encodeKeeping_append, decodeKeeping, decodeKeepingFrom_append_ascii holds_between _ hb,
    ← eq_of_encodeKeeping_ascii hb]
  rfl

/-- A name that can stand in a directory, as the system tells it. -/
structure IsName (name : Text) : Prop where
  ne_nil : name ≠ []
  no_slash : slash ∉ name
  ne_here : name ≠ here
  ne_up : name ≠ up
  told : nameOf name = name

instance (name : Text) : Decidable (IsName name) :=
  decidable_of_iff (name ≠ [] ∧ slash ∉ name ∧ name ≠ here ∧ name ≠ up ∧ nameOf name = name)
    ⟨fun ⟨a, b, c, d, e⟩ => ⟨a, b, c, d, e⟩, fun ⟨a, b, c, d, e⟩ => ⟨a, b, c, d, e⟩⟩

/-- What a component other than the two special ones stands for is a name. -/
theorem isName_nameOf {component : Text} (hne : component ≠ []) (hs : slash ∉ component)
    (hhere : component ≠ here) (hup : component ≠ up) : IsName (nameOf component) := by
  -- a name of ASCII comes from no other component
  have horigin : ∀ name : Text, (∀ c ∈ name, c.val < 0x80) → nameOf component = name →
      component = name := by
    intro name hname heq
    have hoctets : encodeKeeping component = name.map fun c => UInt8.ofNat c.val := by
      rw [← encodeKeeping_nameOf, heq, encodeKeeping_ascii hname]
    have hb : ∀ b ∈ encodeKeeping component, b.toNat < 0x80 := by
      rw [hoctets]
      intro b hb
      obtain ⟨c, hc, rfl⟩ := List.mem_map.1 hb
      have := hname c hc
      rw [UInt8.toNat_ofNat']
      omega
    have hstands : component = nameOf component := by
      conv => lhs; rw [eq_of_encodeKeeping_ascii hb]
      exact (decodeKeepingFrom_ascii hb).symm
    exact hstands.trans heq
  refine ⟨fun h => hne (horigin [] (by simp) h), fun h => hs ?_,
    fun h => hhere (horigin here (by decide) h), fun h => hup (horigin up (by decide) h),
    nameOf_nameOf component⟩
  have hmem := mem_encodeKeeping_of_mem_ascii h (by decide)
  rw [encodeKeeping_nameOf] at hmem
  exact mem_of_mem_encodeKeeping_ascii hmem (by decide)

theorem follow_of_isName {name : Text} (h : IsName name) (names : List Text) :
    follow names name = names ++ [name] := by
  rw [follow, if_neg h.ne_here, if_neg h.ne_up, h.told]

end Path

end AvroJsonSchema
