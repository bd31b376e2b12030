import AvroJsonSchema.Json.Numeral

/-!
# Reading JSON texts

A text is read from the front; each reader returns what it has read and a shorter rest, so the
recursion ends.  Beside the standard notation the reader knows not-a-number and the infinities, it
joins the escapes of a surrogate pair, and it keeps an unpaired surrogate.  A fault is told by its
kind and by the line and the column of its place.

* **`Json.Problem`**: the kinds of faults.  **`Json.ReadFault`**: a fault with its place.
* **`Json.Reader.Taken`**: what a reader has taken off the front of a text.
* **`Json.Reader.value`**: the value at the front of a text.
* **`Json.read`**: the tree of a whole text.
-/

namespace AvroJsonSchema

namespace Json

/-- What keeps a text from being a JSON text. -/
inductive Problem where
  | byteOrderMark
  | valueExpected
  | nameExpected
  | colonExpected
  | commaExpected
  | unterminatedText
  | controlCharacter
  | badEscape
  | badUnicodeEscape
  | extraData
deriving DecidableEq

/-- Why a text cannot be read as a tree. -/
inductive ReadFault where
  | malformed (problem : Problem) (line column : Nat)
  /-- An integer with more digits than the limit. -/
  | tooManyDigits (count : Nat)
deriving DecidableEq

namespace Reader

/-- A fault while reading; its place is told by how many code points are left. -/
inductive Stop where
  | malformed (problem : Problem) (left : Nat)
  | tooManyDigits (count : Nat)

/-- What has been taken off the front of a text, and the shorter rest. -/
structure Taken (α : Type) (s : Text) where
  value : α
  rest : Text
  shorter : rest.length < s.length

/-- The same taken off a longer text. -/
def Taken.lift {α β : Type} {s t : Text} (f : α → β) (h : s.length ≤ t.length) (x : Taken α s) :
    Taken β t :=
  ⟨f x.value, x.rest, Nat.lt_of_lt_of_le x.shorter h⟩

/-- Space, tab, line feed and carriage return. -/
def isBlank (c : CodePoint) : Bool :=
  c.val = 32 || c.val = 9 || c.val = 10 || c.val = 13

/-- The first code point of a text that is no blank. -/
def next? (s : Text) : Option (Taken CodePoint s) :=
  match s with
  | [] => none
  | c :: r =>
    if isBlank c then (next? r).map (Taken.lift id (Nat.le_succ _))
    else some ⟨c, r, Nat.lt_succ_self _⟩

/-! ### Texts between quotes -/

/-- The value of a hexadecimal digit. -/
def hexValue? (c : CodePoint) : Option Nat :=
  if 48 ≤ c.val ∧ c.val ≤ 57 then some (c.val - 48)
  else if 97 ≤ c.val ∧ c.val ≤ 102 then some (c.val - 87)
  else if 65 ≤ c.val ∧ c.val ≤ 70 then some (c.val - 55)
  else none

/-- A UTF-16 unit of four hexadecimal digits, which may not end the text. -/
def takeUnit? : Text → Option (Nat × Text)
  | a :: b :: c :: d :: e :: r => do
    let a ← hexValue? a
    let b ← hexValue? b
    let c ← hexValue? c
    let d ← hexValue? d
    pure (a * 4096 + b * 256 + c * 16 + d, e :: r)
  | _ => none

theorem takeUnit?_length {s r : Text} {n : Nat} (h : takeUnit? s = some (n, r)) :
    r.length < s.length := by
  unfold takeUnit? at h
  split at h
  · simp only [Option.pure_def, Option.bind_eq_bind, Option.bind_eq_some_iff,
      Option.some.injEq, Prod.mk.injEq] at h
    obtain ⟨_, _, _, _, _, _, _, _, _, rfl⟩ := h
    simp only [List.length_cons]
    omega
  · simp at h

/-- The unit of the escape that opens a text, if one does. -/
def takeEscapedUnit? : Text → Option (Except Stop (Nat × Text))
  | c :: d :: r =>
    if c.val = 92 ∧ d.val = 117 then
      some (match takeUnit? r with
        | some x => .ok x
        | none => .error (.malformed .badUnicodeEscape (d :: r).length))
    else none
  | _ => none

theorem takeEscapedUnit?_length {s r : Text} {n : Nat}
    (h : takeEscapedUnit? s = some (.ok (n, r))) : r.length < s.length := by
  unfold takeEscapedUnit? at h
  split at h
  · split at h
    · simp only [Option.some.injEq] at h
      split at h
      · rename_i x hx
        simp only [Except.ok.injEq] at h
        subst h
        have := takeUnit?_length hx
        simp only [List.length_cons]
        omega
      · simp at h
    · simp at h
  · simp at h

/-- Whether a UTF-16 unit opens a surrogate pair. -/
def opensPair (n : Nat) : Bool := 0xD800 ≤ n && n ≤ 0xDBFF

/-- Whether a UTF-16 unit closes a surrogate pair. -/
def closesPair (n : Nat) : Bool := 0xDC00 ≤ n && n ≤ 0xDFFF

/-- The code point of an escape by number, at the digits.  A unit that opens a pair is joined
with an escape that closes it. -/
def takeNumbered (s : Text) : Except Stop (Taken CodePoint s) :=
  match hs : takeUnit? s with
  | none => .error (.malformed .badUnicodeEscape (s.length + 1))
  | some (n, r) =>
    have hr : r.length < s.length := takeUnit?_length hs
    if opensPair n then
      match hq : takeEscapedUnit? r with
      | none => .ok ⟨CodePoint.ofNat n, r, hr⟩
      | some (.error stop) => .error stop
      | some (.ok (m, q)) =>
        if closesPair m then
          .ok ⟨CodePoint.ofNat (0x10000 + (n - 0xD800) * 0x400 + (m - 0xDC00)), q,
            Nat.lt_trans (takeEscapedUnit?_length hq) hr⟩
        else .ok ⟨CodePoint.ofNat n, r, hr⟩
    else .ok ⟨CodePoint.ofNat n, r, hr⟩

/-- The code point that a letter stands for after a backslash. -/
def lettered? (c : CodePoint) : Option CodePoint :=
  match c.val with
  | 34 => some c
  | 92 => some c
  | 47 => some c
  | 98 => some (CodePoint.ofNat 8)
  | 102 => some (CodePoint.ofNat 12)
  | 110 => some (CodePoint.ofNat 10)
  | 114 => some (CodePoint.ofNat 13)
  | 116 => some (CodePoint.ofNat 9)
  | _ => none

/-- The code point of an escape, after its backslash. -/
def takeEscape (c : CodePoint) (r : Text) : Except Stop (Taken CodePoint (c :: r)) :=
  if c.val = 117 then
    (takeNumbered r).map (Taken.lift id (Nat.le_succ _))
  else
    match lettered? c with
    | some p => .ok ⟨p, r, Nat.lt_succ_self _⟩
    | none => .error (.malformed .badEscape (r.length + 2))

/-- The text up to the closing quote; `start` is the whole from the opening quote on. -/
def takeText (start : Text) (s : Text) : Except Stop (Taken Text s) :=
  match s with
  | [] => .error (.malformed .unterminatedText start.length)
  | c :: r =>
    if c.val = 34 then .ok ⟨[], r, Nat.lt_succ_self _⟩
    else if c.val = 92 then
      match r with
      | [] => .error (.malformed .unterminatedText start.length)
      | d :: q => do
        let p ← takeEscape d q
        let t ← takeText start p.rest
        pure ⟨p.value :: t.value, t.rest, by
          have h1 := t.shorter
          have h2 := p.shorter
          simp only [List.length_cons] at *
          omega⟩
    else if c.val < 32 then .error (.malformed .controlCharacter (r.length + 1))
    else do
      let t ← takeText start r
      pure (t.lift (c :: ·) (Nat.le_succ _))
termination_by s.length
decreasing_by
  · have := p.shorter
    simp only [List.length_cons] at *
    omega
  · simp

/-! ### Values -/

/-- The values that are written as words. -/
def words : List (Text × Json) :=
  [("null", .null), ("true", .bool true), ("false", .bool false), ("NaN", .float .nan),
    ("Infinity", .float (.infinity false)), ("-Infinity", .float (.infinity true))]

theorem after?_length {w s r : Text} (h : Text.after? w s = some r) :
    r.length + w.length = s.length := by
  induction w generalizing s with
  | nil =>
    simp only [Text.after?, Option.some.injEq] at h
    simp [h]
  | cons a w ih =>
    cases s with
    | nil => simp [Text.after?] at h
    | cons b s =>
      simp only [Text.after?] at h
      split at h
      · have := ih h
        simp only [List.length_cons]
        omega
      · simp at h

/-- The word at the front of a text, if there is one. -/
def takeWord? (s : Text) : List (Text × Json) → Option (Taken Json s)
  | [] => none
  | (w, j) :: ws =>
    match h : Text.after? w s with
    | some r =>
      if hw : w.length = 0 then takeWord? s ws
      else some ⟨j, r, by have := after?_length h; omega⟩
    | none => takeWord? s ws

/-- A word or a number. -/
def takeScalar (s : Text) : Except Stop (Taken Json s) :=
  match takeWord? s words with
  | some taken => .ok taken
  | none =>
    match h : Numeral.take? s with
    | none => .error (.malformed .valueExpected s.length)
    | some (n, r) =>
      match n.value with
      | .ok j => .ok ⟨j, r, Numeral.take?_length h⟩
      | .error count => .error (.tooManyDigits count)

mutual

/-- The value at the front of a text, after blanks. -/
def value (s : Text) : Except Stop (Taken Json s) :=
  match next? s with
  | none => .error (.malformed .valueExpected 0)
  | some ⟨c, r, hr⟩ =>
    if c.val = 34 then
      (takeText (c :: r) r).map (Taken.lift .str (Nat.le_of_lt hr))
    else if c.val = 123 then
      match next? r with
      | none => .error (.malformed .nameExpected 0)
      | some ⟨d, q, hq⟩ =>
        if d.val = 125 then .ok ⟨.obj [], q, Nat.lt_trans hq hr⟩
        else (entries r).map (Taken.lift (fun es => .obj (Table.ofPairs es)) (Nat.le_of_lt hr))
    else if c.val = 91 then
      match next? r with
      | none => .error (.malformed .valueExpected 0)
      | some ⟨d, q, hq⟩ =>
        if d.val = 93 then .ok ⟨.arr [], q, Nat.lt_trans hq hr⟩
        else (items r).map (Taken.lift .arr (Nat.le_of_lt hr))
    else
      have hc : (c :: r).length ≤ s.length := hr
      (takeScalar (c :: r)).map (Taken.lift id hc)
termination_by (s.length, 0)

/-- The items of a list up to its closing bracket. -/
def items (s : Text) : Except Stop (Taken (List Json) s) := do
  let j ← value s
  have hj := j.shorter
  match next? j.rest with
  | none => .error (.malformed .commaExpected 0)
  | some ⟨d, q, hq⟩ =>
    if d.val = 93 then .ok ⟨[j.value], q, Nat.lt_trans hq hj⟩
    else if d.val = 44 then
      let js ← items q
      .ok (js.lift (j.value :: ·) (Nat.le_of_lt (Nat.lt_trans hq hj)))
    else .error (.malformed .commaExpected (q.length + 1))
termination_by (s.length, 1)

/-- The entries of an object up to its closing brace. -/
def entries (s : Text) : Except Stop (Taken (List (Key × Json)) s) :=
  match next? s with
  | none => .error (.malformed .nameExpected 0)
  | some ⟨c, r, hr⟩ =>
    if c.val = 34 then do
      let name ← takeText (c :: r) r
      have hn := Nat.lt_trans name.shorter hr
      match next? name.rest with
      | none => .error (.malformed .colonExpected 0)
      | some ⟨d, q, hq⟩ =>
        if d.val = 58 then
          let j ← value q
          have hj := Nat.lt_trans j.shorter (Nat.lt_trans hq hn)
          match next? j.rest with
          | none => .error (.malformed .commaExpected 0)
          | some ⟨e, p, hp⟩ =>
            if e.val = 125 then
              .ok ⟨[(.text name.value, j.value)], p, Nat.lt_trans hp hj⟩
            else if e.val = 44 then
              let es ← entries p
              .ok (es.lift ((.text name.value, j.value) :: ·) (Nat.le_of_lt (Nat.lt_trans hp hj)))
            else .error (.malformed .commaExpected (p.length + 1))
        else .error (.malformed .colonExpected (q.length + 1))
    else .error (.malformed .nameExpected (r.length + 1))
termination_by (s.length, 1)

end

/-- The line and the column of the place with `left` code points after it, both from one. -/
def place (t : Text) (left : Nat) : Nat × Nat :=
  let before := t.take (t.length - left)
  (before.countP (·.val = 10) + 1, (before.reverse.takeWhile (·.val ≠ 10)).length + 1)

/-- A fault at a place of a text. -/
def Stop.within (t : Text) : Stop → ReadFault
  | .malformed problem left => .malformed problem (place t left).1 (place t left).2
  | .tooManyDigits count => .tooManyDigits count

/-- One value with blanks around it, up to the end of the text. -/
def whole (t : Text) : Except Stop Json := do
  let j ← value t
  match next? j.rest with
  | none => .ok j.value
  | some ⟨_, r, _⟩ => .error (.malformed .extraData (r.length + 1))

end Reader

/-- Whether a text begins with a byte order mark. -/
def hasByteOrderMark (t : Text) : Bool :=
  match t with
  | [] => false
  | c :: _ => c.val = 0xFEFF

/-- The tree of a JSON text. -/
def read (t : Text) : Except ReadFault Json :=
  if hasByteOrderMark t then .error (.malformed .byteOrderMark 1 1)
  else
    match Reader.whole t with
    | .ok j => .ok j
    | .error stop => .error (stop.within t)

end Json

end AvroJsonSchema
