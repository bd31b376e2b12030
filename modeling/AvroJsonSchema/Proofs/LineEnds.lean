import AvroJsonSchema.Proofs.Readers

/-!
# Line ends in a schema text

A file is read with its line ends unified, the body of an answer is not.  The tree is the same: a
line end outside of quotes stands where a blank may stand and is a blank however it is spelled, and
between quotes each of its code points is a control character, which no text may hold.

* **`Text.unify_cases`**: how unified texts begin.
* **`Json.Unifies`**: a reader has taken the same off a text and off the unified one.
* **`Json.Reader.unified`**: the readers of values do so.
* **`Schema.parse_unifyLineEnds`**: so does the reader of schemas.
-/

namespace AvroJsonSchema

namespace Text

theorem unifyLineEnds_cons {c : CodePoint} (h : c.val ≠ 13) (r : Text) :
    unifyLineEnds (c :: r) = c :: unifyLineEnds r := by
  cases r with
  | nil => rw [unifyLineEnds.eq_1, unifyLineEnds.eq_2, if_neg h]
  | cons d r => rw [unifyLineEnds.eq_3, if_neg h]

/-- A line end that begins with a carriage return ends before a text that is unified by itself. -/
theorem unifyLineEnds_return {c : CodePoint} (h : c.val = 13) (r : Text) :
    ∃ q, unifyLineEnds (c :: r) = CodePoint.lineFeed :: unifyLineEnds q ∧
      (r = q ∨ ∃ d, d.val = 10 ∧ r = d :: q) := by
  cases r with
  | nil => exact ⟨[], by rw [unifyLineEnds.eq_1, unifyLineEnds.eq_2, if_pos h], .inl rfl⟩
  | cons d r =>
    rw [unifyLineEnds.eq_3, if_pos h]
    by_cases hd : d.val = 10
    · exact ⟨r, if_pos hd, .inr ⟨d, hd, rfl⟩⟩
    · exact ⟨d :: r, if_neg hd, .inl rfl⟩

/-- A unified text is empty, begins like the text, or begins with a line feed in the place of a
carriage return. -/
theorem unify_cases (s : Text) :
    (s = [] ∧ unifyLineEnds s = []) ∨
    (∃ c r, s = c :: r ∧ c.val ≠ 13 ∧ unifyLineEnds s = c :: unifyLineEnds r) ∨
    ∃ c r q, s = c :: r ∧ c.val = 13 ∧ unifyLineEnds s = CodePoint.lineFeed :: q := by
  cases s with
  | nil => exact .inl ⟨rfl, unifyLineEnds.eq_1⟩
  | cons c r =>
    by_cases h : c.val = 13
    · obtain ⟨q, hq, -⟩ := unifyLineEnds_return h r
      exact .inr (.inr ⟨c, r, _, rfl, h, hq⟩)
    · exact .inr (.inl ⟨c, r, rfl, h, unifyLineEnds_cons h r⟩)

theorem unifyLineEnds_eq_nil {s : Text} : unifyLineEnds s = [] ↔ s = [] := by
  rcases unify_cases s with ⟨rfl, h⟩ | ⟨c, r, rfl, -, h⟩ | ⟨c, r, q, rfl, -, h⟩ <;> simp [h]

/-- A text that holds no line end stands at the beginning of the unified text if and only if it
stands at the beginning of the text. -/
theorem after?_unifyLineEnds {w : Text} (hw : ∀ c ∈ w, c.val ≠ 13 ∧ c.val ≠ 10) (s : Text) :
    after? w (unifyLineEnds s) = (after? w s).map unifyLineEnds := by
  induction w generalizing s with
  | nil => cases s <;> rfl
  | cons a w ih =>
    obtain ⟨hreturn, hfeed⟩ := hw a List.mem_cons_self
    rcases unify_cases s with ⟨rfl, h⟩ | ⟨c, r, rfl, -, h⟩ | ⟨c, r, q, rfl, hc, h⟩
    · rw [h, after?]
      rfl
    · rw [h, after?, after?]
      split
      · exact ih (fun b hb => hw b (List.mem_cons_of_mem _ hb)) r
      · rfl
    · have hac : a ≠ c := fun heq => hreturn (heq ▸ hc)
      have haf : a ≠ CodePoint.lineFeed := fun heq => hfeed (heq ▸ rfl)
      rw [h, after?, after?, if_neg hac, if_neg haf]
      rfl

end Text

namespace Json

open Text

/-- What has been taken off a unified text is what has been taken off the text, with the rest
unified. -/
def Unifies {α : Type} (x y : Option (α × Text)) : Prop :=
  y = x.map (Prod.map id unifyLineEnds)

section Unifies

variable {α β : Type} {x y : Option (α × Text)}

theorem Unifies.none : Unifies (Option.none : Option (α × Text)) Option.none :=
  rfl

theorem Unifies.some (a : α) (r : Text) : Unifies (.some (a, r)) (.some (a, unifyLineEnds r)) :=
  rfl

theorem Unifies.bind {f g : α × Text → Option (β × Text)} (h : Unifies x y)
    (hfg : ∀ a r, x = .some (a, r) → Unifies (f (a, r)) (g (a, unifyLineEnds r))) :
    Unifies (x.bind f) (y.bind g) := by
  subst h
  cases x with
  | none => exact .none
  | some taken => exact hfg taken.1 taken.2 rfl

theorem Unifies.map (f : α → β) (h : Unifies x y) :
    Unifies (x.map (Prod.map f id)) (y.map (Prod.map f id)) := by
  subst h
  cases x with
  | none => exact .none
  | some taken => exact .some _ _

end Unifies

/-! ### Numerals -/

namespace Numeral

theorem isAsciiDigit_lineFeed : CodePoint.lineFeed.isAsciiDigit = false :=
  rfl

theorem not_isAsciiDigit {c : CodePoint} (h : c.val = 13) : c.isAsciiDigit = false := by
  rw [CodePoint.isAsciiDigit, h]
  rfl

theorem takeDigits_unifyLineEnds (s : Text) :
    takeDigits (unifyLineEnds s) = Prod.map id unifyLineEnds (takeDigits s) := by
  induction s with
  | nil => rfl
  | cons c s ih =>
    by_cases hd : c.isAsciiDigit
    · have hc : c.val ≠ 13 := fun h => by
        rw [not_isAsciiDigit h] at hd
        cases hd
      rw [unifyLineEnds_cons hc]
      simp only [takeDigits, Prod.map, id] at ih ⊢
      rw [List.takeWhile_cons_of_pos hd, List.dropWhile_cons_of_pos hd,
        List.takeWhile_cons_of_pos hd, List.dropWhile_cons_of_pos hd]
      injection ih with htake hdrop
      rw [htake, hdrop]
    · rw [takeDigits_of_not_digit (Bool.eq_false_iff.2 hd), Prod.map]
      rcases unify_cases (c :: s) with ⟨h, -⟩ | ⟨c', r, heq, -, h⟩ | ⟨c', r, q, heq, -, h⟩
      · cases h
      · cases heq
        rw [h, takeDigits_of_not_digit (Bool.eq_false_iff.2 hd)]
        rfl
      · rw [h, takeDigits_of_not_digit isAsciiDigit_lineFeed]
        rfl

theorem takeSign_unifyLineEnds (s : Text) :
    takeSign (unifyLineEnds s) = Prod.map id unifyLineEnds (takeSign s) := by
  rcases unify_cases s with ⟨rfl, h⟩ | ⟨c, r, rfl, -, h⟩ | ⟨c, r, q, rfl, hc, h⟩
  · rw [h]
    rfl
  · rw [h, takeSign, takeSign]
    split
    · rfl
    · rw [Prod.map, h]
      rfl
  · have hsign : takeSign (c :: r) = (false, c :: r) := by
      rw [takeSign, if_neg (by omega)]
    rw [hsign, Prod.map, h]
    rfl

theorem takeWhole?_unifyLineEnds (s : Text) :
    Unifies (takeWhole? s) (takeWhole? (unifyLineEnds s)) := by
  rcases unify_cases s with ⟨rfl, h⟩ | ⟨c, r, rfl, -, h⟩ | ⟨c, r, q, rfl, hc, h⟩
  · rw [h]
    exact .none
  · have hdigits := takeDigits_unifyLineEnds (c :: r)
    rw [h] at hdigits ⊢
    rw [takeWhole?, takeWhole?, hdigits]
    split
    · exact .some _ _
    · split
      · exact .some _ _
      · exact .none
  · have hnone : takeWhole? (c :: r) = none := by
      rw [takeWhole?, if_neg (by omega), if_neg (by simp [not_isAsciiDigit hc])]
    rw [hnone, h]
    exact .none

theorem takeFraction_unifyLineEnds (s : Text) :
    takeFraction (unifyLineEnds s) = Prod.map id unifyLineEnds (takeFraction s) := by
  rcases unify_cases s with ⟨rfl, h⟩ | ⟨c, r, rfl, -, h⟩ | ⟨c, r, q, rfl, hc, h⟩
  · rw [h]
    rfl
  · rw [h, takeFraction_cons, takeFraction_cons, takeDigits_unifyLineEnds]
    simp only [Prod.map_fst, id]
    split
    · rfl
    · rw [Prod.map, h]
      rfl
  · have hstay : takeFraction (c :: r) = ([], c :: r) := by
      rw [takeFraction_cons, if_neg (by omega)]
    rw [hstay, Prod.map, h, takeFraction_cons]
    rfl

theorem takeExponentSign_unifyLineEnds (s : Text) :
    takeExponentSign (unifyLineEnds s) = Prod.map id unifyLineEnds (takeExponentSign s) := by
  rcases unify_cases s with ⟨rfl, h⟩ | ⟨c, r, rfl, -, h⟩ | ⟨c, r, q, rfl, hc, h⟩
  · rw [h]
    rfl
  · have hsign := takeSign_unifyLineEnds (c :: r)
    rw [h] at hsign ⊢
    rw [takeExponentSign, takeExponentSign, hsign]
    split <;> rfl
  · have hsign := takeSign_unifyLineEnds (c :: r)
    rw [h] at hsign ⊢
    rw [takeExponentSign, takeExponentSign, if_neg (by decide), if_neg (by omega), hsign]

theorem takeExponent_unifyLineEnds (s : Text) :
    takeExponent (unifyLineEnds s) = Prod.map id unifyLineEnds (takeExponent s) := by
  rcases unify_cases s with ⟨rfl, h⟩ | ⟨c, r, rfl, -, h⟩ | ⟨c, r, q, rfl, hc, h⟩
  · rw [h]
    rfl
  · have hdigits := takeDigits_unifyLineEnds (takeExponentSign r).2
    rw [h, takeExponent, takeExponent]
    simp only [takeExponentSign_unifyLineEnds, Prod.map_fst, Prod.map_snd, id, hdigits]
    split
    · cases takeDigits (takeExponentSign r).2 with
      | mk digits rest =>
        cases digits with
        | nil => exact congrArg (Prod.mk none) h.symm
        | cons d digits => rfl
    · rw [Prod.map, h]
      rfl
  · have hnone : takeExponent (c :: r) = (none, c :: r) := by
      rw [takeExponent, if_neg (by omega)]
    rw [hnone, h, Prod.map, h]
    rfl

theorem take?_unifyLineEnds (s : Text) : Unifies (take? s) (take? (unifyLineEnds s)) := by
  have hwhole := takeWhole?_unifyLineEnds (takeSign s).2
  simp only [take?, takeSign_unifyLineEnds, Prod.map_fst, Prod.map_snd, id]
  rw [hwhole]
  cases takeWhole? (takeSign s).2 with
  | none => exact .none
  | some taken =>
    simp only [Option.map_some, Prod.map, id, takeFraction_unifyLineEnds,
      takeExponent_unifyLineEnds]
    exact .some _ _

end Numeral

namespace Reader

/-! ### Texts between quotes -/

theorem ne_return_of_not_blank {c : CodePoint} (h : isBlank c = false) : c.val ≠ 13 := by
  intro hc
  rw [isBlank, hc] at h
  cases h

theorem first?_unifyLineEnds (s : Text) : Unifies (first? s) (first? (unifyLineEnds s)) := by
  induction hn : s.length using Nat.strongRecOn generalizing s with
  | _ n ih =>
    cases s with
    | nil => rw [unifyLineEnds.eq_1]; exact .none
    | cons c r =>
      subst hn
      by_cases hc : c.val = 13
      · have hblank : isBlank c = true := by
          rw [isBlank, hc]
          rfl
        obtain ⟨q, hq, hr⟩ := unifyLineEnds_return hc r
        rw [hq, first?_cons, if_pos hblank, first?_cons, if_pos (show isBlank _ = true from rfl)]
        rcases hr with rfl | ⟨d, hd, rfl⟩
        · exact ih _ (Nat.lt_succ_self _) r rfl
        · have hfeed : isBlank d = true := by
            rw [isBlank, hd]
            rfl
          rw [first?_cons, if_pos hfeed]
          exact ih _ (Nat.lt_succ_of_lt (Nat.lt_succ_self _)) q rfl
      · rw [unifyLineEnds_cons hc, first?_cons, first?_cons]
        split
        · exact ih _ (Nat.lt_succ_self _) r rfl
        · exact .some _ _

theorem hexValue?_return {c : CodePoint} (h : c.val = 13) : hexValue? c = none := by
  rw [hexValue?, h]
  rfl

theorem takeHex?_unifyLineEnds (s : Text) : Unifies (takeHex? s) (takeHex? (unifyLineEnds s)) := by
  rcases unify_cases s with ⟨rfl, h⟩ | ⟨c, r, rfl, -, h⟩ | ⟨c, r, q, rfl, hc, h⟩
  · rw [h]
    exact .none
  · rw [h, takeHex?, takeHex?]
    cases hexValue? c with
    | none => exact .none
    | some n => exact .some _ _
  · rw [h, takeHex?, hexValue?_return hc]
    exact .none

theorem takeUnit?_unifyLineEnds (s : Text) : Unifies (takeUnit? s) (takeUnit? (unifyLineEnds s)) := by
  rw [takeUnit?_eq, takeUnit?_eq]
  refine (takeHex?_unifyLineEnds s).bind fun a r _ => ?_
  refine (takeHex?_unifyLineEnds r).bind fun b r _ => ?_
  refine (takeHex?_unifyLineEnds r).bind fun c r _ => ?_
  refine (takeHex?_unifyLineEnds r).bind fun d r _ => ?_
  simp only [unifyLineEnds_eq_nil]
  split
  · exact .none
  · exact .some _ _

theorem numbered?_unifyLineEnds (s : Text) : numbered? (unifyLineEnds s) =
    (numbered? s).map (Option.map (Prod.map id unifyLineEnds)) := by
  rcases unify_cases s with ⟨rfl, h⟩ | ⟨d, r, rfl, -, h⟩ | ⟨d, r, q, rfl, hd, h⟩
  · rw [h]
    rfl
  · rw [h, numbered?, numbered?]
    split
    · exact congrArg some (takeUnit?_unifyLineEnds r)
    · rfl
  · rw [h, numbered?, numbered?, if_neg (by decide), if_neg (by omega)]
    rfl

theorem escapedUnit?_unifyLineEnds (s : Text) : escapedUnit? (unifyLineEnds s) =
    (escapedUnit? s).map (Option.map (Prod.map id unifyLineEnds)) := by
  rcases unify_cases s with ⟨rfl, h⟩ | ⟨c, r, rfl, -, h⟩ | ⟨c, r, q, rfl, hc, h⟩
  · rw [h]
    rfl
  · rw [h, escapedUnit?_cons, escapedUnit?_cons]
    split
    · exact numbered?_unifyLineEnds r
    · rfl
  · rw [h, escapedUnit?_cons, escapedUnit?_cons, if_neg (by decide), if_neg (by omega)]
    rfl

theorem takeNumbered_unifyLineEnds (s : Text) :
    Unifies (taken? (takeNumbered s)) (taken? (takeNumbered (unifyLineEnds s))) := by
  rw [taken?_takeNumbered, taken?_takeNumbered]
  refine (takeUnit?_unifyLineEnds s).bind fun n r _ => ?_
  rw [joined?, joined?, escapedUnit?_unifyLineEnds]
  dsimp only
  split
  · rcases escapedUnit? r with _ | _ | ⟨m, q⟩
    · exact .some _ _
    · exact .none
    · simp only [Option.map_some, Prod.map, id]
      split
      · exact .some _ _
      · exact .some _ _
  · exact .some _ _

theorem takeEscape_unifyLineEnds (c : CodePoint) (r : Text) :
    Unifies (taken? (takeEscape c r)) (taken? (takeEscape c (unifyLineEnds r))) := by
  rw [taken?_takeEscape, taken?_takeEscape]
  split
  · exact takeNumbered_unifyLineEnds r
  · cases lettered? c with
    | none => exact .none
    | some p => exact .some _ _

/-- A line end is no escape. -/
theorem takeEscape_of_lineEnd {c : CodePoint} (h : c.val = 13 ∨ c.val = 10) (r : Text) :
    taken? (takeEscape c r) = none := by
  rw [taken?_takeEscape, if_neg (by omega), lettered?]
  rcases h with h | h <;> rw [h] <;> rfl

/-- Where the text begins matters to nothing but the place of a fault. -/
theorem takeText_unifyLineEnds (start start' s : Text) :
    Unifies (taken? (takeText start s)) (taken? (takeText start' (unifyLineEnds s))) := by
  induction hn : s.length using Nat.strongRecOn generalizing s with
  | _ n ih =>
    subst hn
    rcases unify_cases s with ⟨rfl, h⟩ | ⟨c, r, rfl, -, h⟩ | ⟨c, r, q, rfl, hc, h⟩
    · rw [h, takeText, takeText]
      exact .none
    · rw [h, taken?_takeText_cons, taken?_takeText_cons]
      split
      · exact .some _ _
      · split
        · rcases unify_cases r with ⟨rfl, h'⟩ | ⟨d, q, rfl, -, h'⟩ | ⟨d, q, q', rfl, hd, h'⟩
          · rw [h']
            exact .none
          · rw [h']
            refine (takeEscape_unifyLineEnds d q).bind fun p rest hp => ?_
            have hlength := taken?_length hp
            exact (ih rest.length (Nat.lt_succ_of_lt hlength) rest rfl).map _
          · rw [h']
            dsimp only
            rw [takeEscape_of_lineEnd (.inl hd), takeEscape_of_lineEnd (.inr rfl)]
            exact .none
        · split
          · exact .none
          · exact (ih r.length (Nat.lt_succ_self _) r rfl).map _
    · rw [h, taken?_takeText_cons, taken?_takeText_cons, if_neg (by omega), if_neg (by omega),
        if_pos (by omega), if_neg (by decide), if_neg (by decide), if_pos (by decide)]
      exact .none

/-! ### Values -/

theorem word?_unifyLineEnds (s : Text) {ws : List (Text × Json)}
    (hws : ∀ e ∈ ws, e.1 ≠ [] ∧ ∀ c ∈ e.1, c.val ≠ 13 ∧ c.val ≠ 10) :
    Unifies (word? s ws) (word? (unifyLineEnds s) ws) := by
  induction ws with
  | nil => exact .none
  | cons e ws ih =>
    obtain ⟨w, j⟩ := e
    obtain ⟨hne, hplain⟩ := hws _ List.mem_cons_self
    have hmore := ih fun e he => hws e (List.mem_cons_of_mem _ he)
    rw [word?_cons _ _ _ _ hne, word?_cons _ _ _ _ hne, after?_unifyLineEnds hplain]
    cases Text.after? w s with
    | none => exact hmore
    | some r => exact .some _ _

theorem words_plain : ∀ e ∈ words, e.1 ≠ [] ∧ ∀ c ∈ e.1, c.val ≠ 13 ∧ c.val ≠ 10 := by
  decide

theorem takeScalar_unifyLineEnds (s : Text) :
    Unifies (taken? (takeScalar s)) (taken? (takeScalar (unifyLineEnds s))) := by
  rw [taken?_takeScalar, taken?_takeScalar, word?_unifyLineEnds s words_plain]
  cases word? s words with
  | some taken => exact .some _ _
  | none =>
    simp only [Option.map_none, Option.none_or]
    refine (Numeral.take?_unifyLineEnds s).bind fun n r _ => ?_
    rw [number?, number?]
    cases n.value with
    | error count => exact .none
    | ok j => exact .some _ _

/-- The readers of values take the same off a text and off the unified one. -/
structure Unified (s : Text) : Prop where
  value : Unifies (taken? (value s)) (taken? (value (unifyLineEnds s)))
  items : Unifies (taken? (items s)) (taken? (items (unifyLineEnds s)))
  entries : Unifies (taken? (entries s)) (taken? (entries (unifyLineEnds s)))

theorem valueAfter?_unifyLineEnds {c : CodePoint} {r : Text} (hc : isBlank c = false)
    (h : Unified r) : Unifies (valueAfter? (c, r)) (valueAfter? (c, unifyLineEnds r)) := by
  rw [valueAfter?, valueAfter?]
  dsimp only
  split
  · exact (takeText_unifyLineEnds _ _ r).map _
  · split
    · refine (first?_unifyLineEnds r).bind fun d q _ => ?_
      dsimp only
      split
      · exact .some _ _
      · exact h.entries.map _
    · split
      · refine (first?_unifyLineEnds r).bind fun d q _ => ?_
        dsimp only
        split
        · exact .some _ _
        · exact h.items.map _
      · rw [← unifyLineEnds_cons (ne_return_of_not_blank hc)]
        exact takeScalar_unifyLineEnds (c :: r)

/-- **Line ends make no difference to the readers of values.** -/
theorem unified (s : Text) : Unified s := by
  induction hn : s.length using Nat.strongRecOn generalizing s with
  | _ n ih =>
    subst hn
    have hshorter : ∀ r : Text, r.length < s.length → Unified r := fun r hr => ih r.length hr r rfl
    -- the rest after a value begins after a code point that is no blank, so never within a line end
    have hvalue : Unifies (taken? (value s)) (taken? (value (unifyLineEnds s))) := by
      rw [taken?_value, taken?_value]
      refine (first?_unifyLineEnds s).bind fun c r hfirst => ?_
      obtain ⟨hc, hr⟩ := first?_spec hfirst
      exact valueAfter?_unifyLineEnds hc (hshorter r hr)
    refine ⟨hvalue, ?_, ?_⟩
    · rw [taken?_items, taken?_items]
      refine hvalue.bind fun j rest hj => ?_
      refine (first?_unifyLineEnds rest).bind fun d q hd => ?_
      have hq : q.length < s.length := Nat.lt_trans (first?_spec hd).2 (taken?_length hj)
      dsimp only
      split
      · exact .some _ _
      · split
        · exact (hshorter q hq).items.map _
        · exact .none
    · rw [taken?_entries, taken?_entries]
      refine (first?_unifyLineEnds s).bind fun c r hfirst => ?_
      have hr := (first?_spec hfirst).2
      dsimp only
      split
      · refine (takeText_unifyLineEnds _ _ r).bind fun name rest hname => ?_
        refine (first?_unifyLineEnds rest).bind fun d q hd => ?_
        have hq : q.length < s.length :=
          Nat.lt_trans (first?_spec hd).2 (Nat.lt_trans (taken?_length hname) hr)
        dsimp only
        split
        · refine (hshorter q hq).value.bind fun j rest hj => ?_
          refine (first?_unifyLineEnds rest).bind fun e p he => ?_
          have hp : p.length < s.length :=
            Nat.lt_trans (first?_spec he).2 (Nat.lt_trans (taken?_length hj) hq)
          dsimp only
          split
          · exact .some _ _
          · split
            · exact (hshorter p hp).entries.map _
            · exact .none
        · exact .none
      · exact .none

theorem whole_unifyLineEnds (t : Text) :
    (whole (unifyLineEnds t)).toOption = (whole t).toOption := by
  rw [toOption_whole, toOption_whole, (unified t).value, Option.bind_map]
  refine congrArg _ (funext fun j => ?_)
  have hrest : (first? (unifyLineEnds j.2)).isNone = (first? j.2).isNone := by
    rw [first?_unifyLineEnds j.2, Option.isNone_map]
  simp only [Function.comp, Prod.map_snd, Prod.map_fst, id, hrest]

end Reader

theorem hasByteOrderMark_unifyLineEnds (t : Text) :
    hasByteOrderMark (unifyLineEnds t) = hasByteOrderMark t := by
  rcases unify_cases t with ⟨rfl, h⟩ | ⟨c, r, rfl, -, h⟩ | ⟨c, r, q, rfl, hc, h⟩
  · rw [h]
  · rw [h]
    rfl
  · rw [h, hasByteOrderMark, hasByteOrderMark, hc]
    rfl

/-- A text and the unified one are read as one tree, or neither can be read. -/
theorem read_unifyLineEnds (t : Text) : (read (unifyLineEnds t)).toOption = (read t).toOption := by
  rw [toOption_read, toOption_read, hasByteOrderMark_unifyLineEnds, Reader.whole_unifyLineEnds]

end Json

namespace Schema

/-- **Line ends make no difference to what a schema text means**, nor to whether it is one. -/
theorem parse_unifyLineEnds (t : Text) :
    (parse t.unifyLineEnds).toOption = (parse t).toOption := by
  rw [toOption_parse, toOption_parse, Json.read_unifyLineEnds]

end Schema

end AvroJsonSchema
