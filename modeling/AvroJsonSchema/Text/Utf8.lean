import AvroJsonSchema.Text.Basic

/-!
# UTF-8

Files hold octets.  A text is read from them by a machine that takes one octet at a time: the
first octet of a code point fixes how many octets follow and which values the next one may have,
so the machine stops at the first octet that rules the sequence out.

* **`Utf8.encode`**: the octets of a text, unless it holds a surrogate.
* **`Utf8.decode`**: the text of some octets, or the place and the kind of the first fault.
* **`Utf8.encodeKeeping`**, **`Utf8.decodeKeeping`**: any octets as a text and back.
-/

namespace AvroJsonSchema

namespace Utf8

/-- The octets of a code point. -/
def encodePoint (c : CodePoint) : List UInt8 :=
  let n := c.val
  if n < 0x80 then [UInt8.ofNat n]
  else if n < 0x800 then [UInt8.ofNat (0xC0 + n / 64), UInt8.ofNat (0x80 + n % 64)]
  else if n < 0x10000 then
    [UInt8.ofNat (0xE0 + n / 4096), UInt8.ofNat (0x80 + n / 64 % 64),
      UInt8.ofNat (0x80 + n % 64)]
  else
    [UInt8.ofNat (0xF0 + n / 262144), UInt8.ofNat (0x80 + n / 4096 % 64),
      UInt8.ofNat (0x80 + n / 64 % 64), UInt8.ofNat (0x80 + n % 64)]

/-- The first run of surrogates in a text, which has no octets. -/
structure EncodeFault where
  first : CodePoint
  start : Nat
  size : Nat
deriving DecidableEq

/-- The first run of surrogates of a text, if there is one. -/
def encodeFault? (t : Text) : Option EncodeFault :=
  let rest := t.dropWhile (!·.isSurrogate)
  match rest with
  | [] => none
  | c :: _ =>
    some ⟨c, t.length - rest.length, (rest.takeWhile CodePoint.isSurrogate).length⟩

/-- The octets of a text. -/
def encode (t : Text) : Except EncodeFault (List UInt8) :=
  match encodeFault? t with
  | some fault => .error fault
  | none => .ok (t.flatMap encodePoint)

/-- What is wrong with a sequence of octets. -/
inductive DecodeProblem where
  /-- No code point begins with the octet. -/
  | invalidStart
  /-- The octet after the range cannot continue it. -/
  | invalidContinuation
  /-- The octets end inside a code point. -/
  | unexpectedEnd
deriving DecidableEq

/-- The octets at fault: the first one, its place and how many there are. -/
structure DecodeFault where
  problem : DecodeProblem
  first : UInt8
  start : Nat
  size : Nat
deriving DecidableEq

/-- Where the machine stands between two octets. -/
inductive State where
  /-- Between two code points. -/
  | between
  /-- Inside a code point that began with `first` at `start`: `owed` octets follow, the next one
  from `low` to `high`, and the ones read so far amount to `value`. -/
  | inside (first : UInt8) (start owed low high value : Nat)
deriving DecidableEq

/-- The state after the first octet of a code point of two or more octets. -/
def lead? (start : Nat) (b : UInt8) : Option State :=
  let n := b.toNat
  if 0xC2 ≤ n ∧ n ≤ 0xDF then some (.inside b start 1 0x80 0xBF (n - 0xC0))
  else if n = 0xE0 then some (.inside b start 2 0xA0 0xBF 0)
  else if n = 0xED then some (.inside b start 2 0x80 0x9F 13)
  else if 0xE1 ≤ n ∧ n ≤ 0xEF then some (.inside b start 2 0x80 0xBF (n - 0xE0))
  else if n = 0xF0 then some (.inside b start 3 0x90 0xBF 0)
  else if 0xF1 ≤ n ∧ n ≤ 0xF3 then some (.inside b start 3 0x80 0xBF (n - 0xF0))
  else if n = 0xF4 then some (.inside b start 3 0x80 0x8F 4)
  else none

/-- What an octet does to the machine. -/
inductive Advance where
  | to (state : State)
  /-- The last octet of a code point. -/
  | done (c : CodePoint)
  | refused

/-- What an octet at a place does to the machine. -/
def advance (place : Nat) (state : State) (b : UInt8) : Advance :=
  match state with
  | .between =>
    if b.toNat < 0x80 then .done (CodePoint.ofNat b.toNat)
    else
      match lead? place b with
      | some state => .to state
      | none => .refused
  | .inside first start owed low high value =>
    if low ≤ b.toNat ∧ b.toNat ≤ high then
      let value := value * 64 + (b.toNat - 0x80)
      if owed = 1 then .done (CodePoint.ofNat value)
      else .to (.inside first start (owed - 1) 0x80 0xBF value)
    else .refused

/-- The fault where an octet at a place is refused. -/
def refusal (place : Nat) (state : State) (b : UInt8) : DecodeFault :=
  match state with
  | .between => ⟨.invalidStart, b, place, 1⟩
  | .inside first start _ _ _ _ => ⟨.invalidContinuation, first, start, place - start⟩

/-- What the end of the octets at a place means. -/
def finish (place : Nat) : State → Except DecodeFault Text
  | .between => .ok []
  | .inside first start _ _ _ _ => .error ⟨.unexpectedEnd, first, start, place - start⟩

/-- Runs the machine over the octets from `place` on. -/
def decodeFrom (state : State) (place : Nat) : List UInt8 → Except DecodeFault Text
  | [] => finish place state
  | b :: bs =>
    match advance place state b with
    | .done c => (decodeFrom .between (place + 1) bs).map (c :: ·)
    | .to state => decodeFrom state (place + 1) bs
    | .refused => .error (refusal place state b)

/-- The text that some octets stand for. -/
def decode (bytes : List UInt8) : Except DecodeFault Text :=
  decodeFrom .between 0 bytes

/-! ### Octets kept in a text

The name of a file may be any octets.  In a text the octets that take no part in a code point are
kept one by one, each as a surrogate that no other octet is kept as. -/

/-- The surrogate that an octet is kept as. -/
def kept (b : UInt8) : CodePoint :=
  CodePoint.ofNat (0xDC00 + b.toNat)

/-- Whether a code point keeps an octet. -/
def isKept (c : CodePoint) : Bool :=
  0xDC80 ≤ c.val && c.val ≤ 0xDCFF

/-- The octets of a text that may keep some. -/
def encodeKeeping (t : Text) : List UInt8 :=
  t.flatMap fun c => if isKept c then [UInt8.ofNat (c.val - 0xDC00)] else encodePoint c

/-- Runs the machine over some octets; those that have led to its state are held. -/
def decodeKeepingFrom (state : State) (held : List UInt8) : List UInt8 → Text
  | [] => held.map kept
  | b :: bs =>
    match advance 0 state b with
    | .done c => c :: decodeKeepingFrom .between [] bs
    | .to state => decodeKeepingFrom state (held ++ [b]) bs
    | .refused =>
      held.map kept ++
        match advance 0 .between b with
        | .done c => c :: decodeKeepingFrom .between [] bs
        | .to state => decodeKeepingFrom state [b] bs
        | .refused => kept b :: decodeKeepingFrom .between [] bs

/-- The text of any octets. -/
def decodeKeeping (bytes : List UInt8) : Text :=
  decodeKeepingFrom .between [] bytes

end Utf8

namespace Text

/-- Each line end, a carriage return with or without a line feed, becomes a line feed. -/
def unifyLineEnds : Text → Text
  | [] => []
  | [c] => if c.val = 13 then [CodePoint.lineFeed] else [c]
  | c :: d :: t =>
    if c.val = 13 then
      if d.val = 10 then CodePoint.lineFeed :: unifyLineEnds t
      else CodePoint.lineFeed :: unifyLineEnds (d :: t)
    else c :: unifyLineEnds (d :: t)

end Text

end AvroJsonSchema
