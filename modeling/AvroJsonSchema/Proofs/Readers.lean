import AvroJsonSchema.Avro.Schema

/-!
# What readers take

A reader returns what it has taken off the front of a text with a proof that the rest is shorter, or
where a fault is.  What it takes, without the proof and the place, follows equations of its own: each
says how the reader goes on from one reader to the next.

* **`Json.Reader.taken?`**, **`Json.Reader.first?`**: what a reader has taken.
* **`Json.Reader.taken?_takeText_cons`**: one step of the reader of texts.
* **`Json.Reader.taken?_value`**, **`Json.Reader.taken?_items`**, **`Json.Reader.taken?_entries`**: one
  step of the readers of values.
* **`Schema.toOption_parse`**: the schema of a text.
-/

namespace AvroJsonSchema

namespace Json

/-! ### Numerals -/

namespace Numeral

theorem takeDigits_of_not_digit {c : CodePoint} (h : c.isAsciiDigit = false) (s : Text) :
    takeDigits (c :: s) = ([], c :: s) := by
  have hno : ¬c.isAsciiDigit := Bool.eq_false_iff.1 h
  rw [takeDigits, List.takeWhile_cons_of_neg hno, List.dropWhile_cons_of_neg hno]

/-- A point belongs to a fraction if digits follow it. -/
theorem takeFraction_cons (c : CodePoint) (r : Text) : takeFraction (c :: r) =
    if c.val = 46 ∧ (takeDigits r).1 ≠ [] then takeDigits r else ([], c :: r) := by
  cases r with
  | nil => rw [if_neg (fun h => h.2 rfl), takeFraction.eq_2 _ (by simp)]
  | cons d r =>
    rw [takeFraction]
    by_cases hd : d.isAsciiDigit
    · have hsome : (takeDigits (d :: r)).1 ≠ [] := by
        rw [takeDigits, List.takeWhile_cons_of_pos hd]
        exact List.cons_ne_nil _ _
      simp only [hd, hsome, ne_eq, not_false_eq_true]
    · have hnone : (takeDigits (d :: r)).1 = [] := by
        rw [takeDigits_of_not_digit (Bool.eq_false_iff.2 hd)]
      rw [if_neg (fun h => hd h.2), if_neg (fun h => h.2 hnone)]

end Numeral

namespace Reader

/-! ### What a reader has taken -/

section Taken

variable {α β : Type} {s t : Text}

/-- The value and the rest, without the proof that the rest is shorter. -/
def Taken.pair (x : Taken α s) : α × Text :=
  (x.value, x.rest)

/-- What a reader has taken, if nothing is wrong. -/
def taken? (x : Except Stop (Taken α s)) : Option (α × Text) :=
  x.toOption.map Taken.pair

theorem taken?_ok (x : Taken α s) : taken? (.ok x) = some (x.value, x.rest) :=
  rfl

theorem taken?_length {x : Except Stop (Taken α s)} {a : α} {r : Text} (h : taken? x = some (a, r)) :
    r.length < s.length := by
  cases x with
  | error stop => cases h
  | ok x =>
    cases h
    exact x.shorter

theorem taken?_map (f : α → β) (h : s.length ≤ t.length) (x : Except Stop (Taken α s)) :
    taken? (x.map (Taken.lift f h)) = (taken? x).map (Prod.map f id) := by
  cases x <;> rfl

end Taken

/-- The first code point of a text that is no blank, and the rest. -/
def first? (s : Text) : Option (CodePoint × Text) :=
  (next? s).map Taken.pair

theorem first?_cons (c : CodePoint) (r : Text) :
    first? (c :: r) = if isBlank c then first? r else some (c, r) := by
  rw [first?, first?, next?]
  split
  · cases next? r <;> rfl
  · rfl

theorem first?_spec {s : Text} {c : CodePoint} {r : Text} (h : first? s = some (c, r)) :
    isBlank c = false ∧ r.length < s.length := by
  induction s with
  | nil => cases h
  | cons d s ih =>
    rw [first?_cons] at h
    split at h
    · obtain ⟨hblank, hlength⟩ := ih h
      exact ⟨hblank, Nat.lt_succ_of_lt hlength⟩
    · rename_i hblank
      cases h
      exact ⟨Bool.eq_false_iff.2 hblank, Nat.lt_succ_self _⟩

/-! ### Texts between quotes -/

/-- The value of a hexadecimal digit at the front of a text, and the rest. -/
def takeHex? : Text → Option (Nat × Text)
  | [] => none
  | c :: r => (hexValue? c).map (·, r)

theorem takeHex?_nil : takeHex? [] = none := by
  rw [takeHex?]

/-- What follows a digit is read from the rest. -/
theorem bind_takeHex?_cons {β : Type} (c : CodePoint) (r : Text) (f : Nat × Text → Option β) :
    (takeHex? (c :: r)).bind f = (hexValue? c).bind fun n => f (n, r) :=
  Option.bind_map

/-- A unit is four digits, one after the other. -/
theorem takeUnit?_eq (s : Text) : takeUnit? s =
    (takeHex? s).bind fun a => (takeHex? a.2).bind fun b => (takeHex? b.2).bind fun c =>
      (takeHex? c.2).bind fun d =>
        if d.2 = [] then none else some (a.1 * 4096 + b.1 * 256 + c.1 * 16 + d.1, d.2) := by
  -- the readers of the four digits share what they bind; a text that is too short fails on the way
  rcases s with _ | ⟨a, _ | ⟨b, _ | ⟨c, _ | ⟨d, _ | ⟨e, r⟩⟩⟩⟩⟩
  all_goals simp [takeUnit?, takeHex?_nil, bind_takeHex?_cons]

/-- The unit of an escape that opens a text, if one does; nothing in it if it is none. -/
def escapedUnit? (s : Text) : Option (Option (Nat × Text)) :=
  (takeEscapedUnit? s).map Except.toOption

/-- The unit after the letter of an escape by number. -/
def numbered? : Text → Option (Option (Nat × Text))
  | [] => none
  | d :: r => if d.val = 117 then some (takeUnit? r) else none

theorem escapedUnit?_cons (c : CodePoint) (r : Text) :
    escapedUnit? (c :: r) = if c.val = 92 then numbered? r else none := by
  cases r with
  | nil => simp [escapedUnit?, takeEscapedUnit?, numbered?]
  | cons d r =>
    rw [escapedUnit?, takeEscapedUnit?, numbered?]
    by_cases hc : c.val = 92
    · by_cases hd : d.val = 117
      · rw [if_pos ⟨hc, hd⟩, if_pos hc, if_pos hd]
        cases takeUnit? r <;> rfl
      · rw [if_neg (fun h => hd h.2), if_pos hc, if_neg hd]
        rfl
    · rw [if_neg (fun h => hc h.1), if_neg hc]
      rfl

/-- The code point of a unit, which is joined with an escape that closes the pair. -/
def joined? (x : Nat × Text) : Option (CodePoint × Text) :=
  if opensPair x.1 then
    match escapedUnit? x.2 with
    | none => some (CodePoint.ofNat x.1, x.2)
    | some none => none
    | some (some (m, q)) =>
      if closesPair m then
        some (CodePoint.ofNat (0x10000 + (x.1 - 0xD800) * 0x400 + (m - 0xDC00)), q)
      else some (CodePoint.ofNat x.1, x.2)
  else some (CodePoint.ofNat x.1, x.2)

theorem taken?_takeNumbered (s : Text) :
    taken? (takeNumbered s) = (takeUnit? s).bind joined? := by
  rw [takeNumbered]
  split
  · rename_i hs
    have hnone : (takeUnit? s).bind joined? = none := by rw [hs, Option.bind_none]
    rw [hnone]
    rfl
  · rename_i n r hs
    have hsome : (takeUnit? s).bind joined? = joined? (n, r) := by rw [hs, Option.bind_some]
    rw [hsome, joined?]
    dsimp only
    split
    · split
      · rename_i hq
        have hescaped : escapedUnit? r = none := by rw [escapedUnit?, hq, Option.map_none]
        rw [hescaped]
        rfl
      · rename_i stop hq
        have hescaped : escapedUnit? r = some none := by
          rw [escapedUnit?, hq]
          rfl
        rw [hescaped]
        rfl
      · rename_i m q hq
        have hescaped : escapedUnit? r = some (some (m, q)) := by
          rw [escapedUnit?, hq]
          rfl
        rw [hescaped]
        dsimp only
        split <;> rw [taken?_ok]
    · rfl

theorem taken?_takeEscape (c : CodePoint) (r : Text) : taken? (takeEscape c r) =
    if c.val = 117 then taken? (takeNumbered r) else (lettered? c).map (·, r) := by
  rw [takeEscape]
  split
  · rw [taken?_map, Prod.map_id, Option.map_id]
    rfl
  · cases lettered? c <;> rfl

theorem taken?_takeText_cons (start : Text) (c : CodePoint) (r : Text) :
    taken? (takeText start (c :: r)) =
      if c.val = 34 then some ([], r)
      else if c.val = 92 then
        match r with
        | [] => none
        | d :: q => (taken? (takeEscape d q)).bind fun p =>
          (taken? (takeText start p.2)).map (Prod.map (p.1 :: ·) id)
      else if c.val < 32 then none
      else (taken? (takeText start r)).map (Prod.map (c :: ·) id) := by
  rw [takeText.eq_def]
  dsimp only
  split
  · rfl
  · split
    · cases r with
      | nil => rfl
      | cons d q =>
        dsimp only
        cases takeEscape d q with
        | error stop => rfl
        | ok p =>
          show taken? (takeText start p.rest >>= _) =
            (taken? (takeText start p.rest)).map (Prod.map (p.value :: ·) id)
          cases takeText start p.rest <;> rfl
    · split
      · rfl
      · cases takeText start r <;> rfl

/-! ### Values -/

/-- The word at the front of a text. -/
def word? (s : Text) (ws : List (Text × Json)) : Option (Json × Text) :=
  (takeWord? s ws).map Taken.pair

theorem word?_cons (s w : Text) (j : Json) (ws : List (Text × Json)) (hw : w ≠ []) :
    word? s ((w, j) :: ws) = ((Text.after? w s).map (j, ·)).or (word? s ws) := by
  rw [word?, takeWord?]
  split
  · rename_i r hr
    have hword : ((Text.after? w s).map (j, ·)).or (word? s ws) = some (j, r) := by
      rw [hr, Option.map_some, Option.some_or]
    rw [hword, dif_neg (fun h => hw (List.eq_nil_of_length_eq_zero h))]
    rfl
  · rename_i hr
    rw [hr]
    rfl

/-- The value of a numeral, unless it has too many digits. -/
def number? (x : Numeral × Text) : Option (Json × Text) :=
  x.1.value.toOption.map (·, x.2)

theorem taken?_takeScalar (s : Text) : taken? (takeScalar s) =
    (word? s words).or ((Numeral.take? s).bind number?) := by
  rw [takeScalar, word?]
  cases takeWord? s words with
  | some taken => rfl
  | none =>
    simp only [Option.map_none, Option.none_or]
    split
    · rename_i hn
      rw [hn]
      rfl
    · rename_i n r hn
      have hnumber : (Numeral.take? s).bind number? = n.value.toOption.map (·, r) := by
        rw [hn, Option.bind_some, number?]
      rw [hnumber]
      cases n.value <;> rfl

/-- What stands at the front of a text whose first code point that is no blank is known. -/
def valueAfter? (x : CodePoint × Text) : Option (Json × Text) :=
  if x.1.val = 34 then (taken? (takeText (x.1 :: x.2) x.2)).map (Prod.map .str id)
  else if x.1.val = 123 then
    (first? x.2).bind fun y =>
      if y.1.val = 125 then some (.obj [], y.2)
      else (taken? (entries x.2)).map (Prod.map (fun es => .obj (Table.ofPairs es)) id)
  else if x.1.val = 91 then
    (first? x.2).bind fun y =>
      if y.1.val = 93 then some (.arr [], y.2)
      else (taken? (items x.2)).map (Prod.map .arr id)
  else taken? (takeScalar (x.1 :: x.2))

theorem taken?_value (s : Text) : taken? (value s) = (first? s).bind valueAfter? := by
  rw [value, first?]
  cases next? s with
  | none => rfl
  | some x =>
    obtain ⟨c, r, hr⟩ := x
    show _ = valueAfter? (c, r)
    rw [valueAfter?]
    dsimp only
    split
    · exact taken?_map _ _ _
    · split
      · rw [first?]
        cases next? r with
        | none => rfl
        | some y =>
          simp only [Option.map_some, Option.bind_some, Taken.pair]
          split
          · rfl
          · exact taken?_map _ _ _
      · split
        · rw [first?]
          cases next? r with
          | none => rfl
          | some y =>
            simp only [Option.map_some, Option.bind_some, Taken.pair]
            split
            · rfl
            · exact taken?_map _ _ _
        · rw [taken?_map, Prod.map_id, Option.map_id]
          rfl

theorem taken?_items (s : Text) : taken? (items s) =
    (taken? (value s)).bind fun j => (first? j.2).bind fun d =>
      if d.1.val = 93 then some ([j.1], d.2)
      else if d.1.val = 44 then (taken? (items d.2)).map (Prod.map (j.1 :: ·) id)
      else none := by
  rw [items]
  cases value s with
  | error stop => rfl
  | ok j =>
    rw [taken?_ok, Option.bind_some, first?]
    simp only [bind, Except.bind]
    cases next? j.rest with
    | none => rfl
    | some d =>
      simp only [Option.map_some, Option.bind_some, Taken.pair]
      split
      · rfl
      · split
        · cases items d.rest <;> rfl
        · rfl

theorem taken?_entries (s : Text) : taken? (entries s) =
    (first? s).bind fun c =>
      if c.1.val = 34 then
        (taken? (takeText (c.1 :: c.2) c.2)).bind fun name => (first? name.2).bind fun d =>
          if d.1.val = 58 then
            (taken? (value d.2)).bind fun j => (first? j.2).bind fun e =>
              if e.1.val = 125 then some ([(.text name.1, j.1)], e.2)
              else if e.1.val = 44 then
                (taken? (entries e.2)).map (Prod.map ((.text name.1, j.1) :: ·) id)
              else none
          else none
      else none := by
  rw [entries, first?]
  cases next? s with
  | none => rfl
  | some c =>
    obtain ⟨c, r, hr⟩ := c
    simp only [Option.map_some, Option.bind_some, Taken.pair]
    split
    · cases takeText (c :: r) r with
      | error stop => rfl
      | ok name =>
        rw [taken?_ok, Option.bind_some, first?]
        simp only [bind, Except.bind]
        cases next? name.rest with
        | none => rfl
        | some d =>
          simp only [Option.map_some, Option.bind_some, Taken.pair]
          split
          · cases value d.rest with
            | error stop => rfl
            | ok j =>
              rw [taken?_ok, Option.bind_some, first?]
              dsimp only
              cases next? j.rest with
              | none => rfl
              | some e =>
                simp only [Option.map_some, Option.bind_some, Taken.pair]
                split
                · rfl
                · split
                  · cases entries e.rest <;> rfl
                  · rfl
          · rfl
    · rfl

theorem toOption_whole (t : Text) : (whole t).toOption =
    (taken? (value t)).bind fun j => if (first? j.2).isNone then some j.1 else none := by
  rw [whole]
  cases value t with
  | error stop => rfl
  | ok j =>
    rw [taken?_ok, Option.bind_some, first?]
    simp only [bind, Except.bind]
    cases next? j.rest <;> rfl

end Reader

theorem toOption_read (t : Text) : (read t).toOption =
    if hasByteOrderMark t then none else (Reader.whole t).toOption := by
  rw [read]
  split
  · rfl
  · cases Reader.whole t <;> rfl

end Json

namespace Schema

/-- A tree that may be a schema. -/
def schema? : Json → Option Json
  | .str name => some (.str name)
  | .arr members => some (.arr members)
  | .obj attributes => some (.obj attributes)
  | _ => none

theorem toOption_parse (t : Text) : (parse t).toOption = (Json.read t).toOption.bind schema? := by
  rw [parse]
  cases Json.read t with
  | error fault => cases fault <;> rfl
  | ok j => cases j <;> rfl

end Schema

end AvroJsonSchema
