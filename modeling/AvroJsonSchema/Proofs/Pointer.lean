import AvroJsonSchema.Options
import AvroJsonSchema.Proofs.Tables
import AvroJsonSchema.Proofs.Texts

/-!
# References as JSON pointers

A reference into the document it stands in is a mark followed by a pointer: tokens with a slash before
each of them.  The pointer is read in three passes, the inverse of how it would be written: octets
written by their numbers are put together to code points, the rest is parted at the slashes, and in
each token the two escapes are undone.  A token with none of the three marks stands for itself.

* **`Pointer.tokens`**: the tokens of a reference.  **`Pointer.find`**: what they lead to.
* **`Pointer.tokens_reference`**: a reference into the definitions table has two tokens.
-/

namespace AvroJsonSchema

namespace Pointer

/-- The mark before each token. -/
def slash : CodePoint := CodePoint.ofNat 47

/-- The mark before an escape in a token. -/
def tilde : CodePoint := CodePoint.ofNat 126

/-- The mark before the number of an octet. -/
def percent : CodePoint := CodePoint.ofNat 37

/-- The octets and the other code points that a text is written with. -/
def pieces : Text → Option (List (UInt8 ⊕ CodePoint))
  | [] => some []
  | c :: t =>
    if c = percent then
      match t with
      | a :: b :: rest => do
        let high ← Json.Reader.hexValue? a
        let low ← Json.Reader.hexValue? b
        let more ← pieces rest
        pure (.inl (UInt8.ofNat (16 * high + low)) :: more)
      | _ => none
    else (pieces t).map (.inr c :: ·)

/-- Puts runs of octets together to code points, with the octets held so far. -/
def assemble (held : List UInt8) : List (UInt8 ⊕ CodePoint) → Option Text
  | [] => (Utf8.decode held).toOption
  | .inl octet :: more => assemble (held ++ [octet]) more
  | .inr c :: more => do
    let before ← (Utf8.decode held).toOption
    let after ← assemble [] more
    pure (before ++ c :: after)

/-- A text without octets that are written by their numbers. -/
def percentDecode (t : Text) : Option Text :=
  (pieces t).bind (assemble [])

/-- A token without escapes: a tilde with a one is a slash, with a zero it is a tilde. -/
def unescape : Text → Option Text
  | [] => some []
  | c :: t =>
    if c = tilde then
      match t with
      | d :: rest =>
        if d = CodePoint.ofNat 48 then (unescape rest).map (tilde :: ·)
        else if d = CodePoint.ofNat 49 then (unescape rest).map (slash :: ·)
        else none
      | [] => none
    else (unescape t).map (c :: ·)

/-- The tokens of a pointer. -/
def tokensOf : Text → Option (List Text)
  | [] => some []
  | c :: t => if c = slash then (Text.splitAt slash t).mapM unescape else none

/-- The tokens of a reference into the document it stands in. -/
def tokens (reference : Text) : Option (List Text) := do
  let written ← Text.after? "#" reference
  let pointer ← percentDecode written
  tokensOf pointer

/-- The place in a list that a token tells: digits without a zero before them. -/
def place? (token : Text) : Option Nat :=
  if token.all CodePoint.isAsciiDigit && !token.isEmpty
      && (token.length = 1 || token.head? ≠ some (CodePoint.ofNat 48)) then
    some (Text.digitsValue token)
  else none

/-- What some tokens lead to. -/
def find : List Text → Json → Option Json
  | [], j => some j
  | token :: more, .obj entries => (Json.Entries.attr? token entries).bind (find more)
  | token :: more, .arr items => (place? token).bind fun n => items[n]?.bind (find more)
  | _ :: _, _ => none

/-- What a reference in a document leads to. -/
def resolve (document : Json) (reference : Text) : Option Json :=
  (tokens reference).bind (find · document)

/-! ### Texts without marks -/

theorem pieces_of_unmarked {t : Text} (h : percent ∉ t) : pieces t = some (t.map .inr) := by
  induction t with
  | nil => rfl
  | cons c t ih =>
    have hc : c ≠ percent := fun hc => h (hc ▸ List.mem_cons_self)
    have ht := ih fun ht => h (List.mem_cons_of_mem _ ht)
    rw [pieces.eq_def]
    simp only [if_neg hc, ht, Option.map_some, List.map_cons]

theorem assemble_points (t : Text) : assemble [] (t.map .inr) = some t := by
  induction t with
  | nil => rfl
  | cons c t ih =>
    show ((Utf8.decode []).toOption.bind fun before =>
      (assemble [] (t.map .inr)).bind fun after => some (before ++ c :: after)) = _
    rw [ih]
    rfl

theorem percentDecode_of_unmarked {t : Text} (h : percent ∉ t) : percentDecode t = some t := by
  rw [percentDecode, pieces_of_unmarked h]
  exact assemble_points t

theorem unescape_of_unmarked {t : Text} (h : tilde ∉ t) : unescape t = some t := by
  induction t with
  | nil => rfl
  | cons c t ih =>
    have hc : c ≠ tilde := fun hc => h (hc ▸ List.mem_cons_self)
    have ht := ih fun ht => h (List.mem_cons_of_mem _ ht)
    rw [unescape.eq_def]
    simp only [if_neg hc, ht, Option.map_some]

/-- A name holds none of the marks that a pointer gives a meaning. -/
def Unmarked (name : Text) : Prop :=
  slash ∉ name ∧ tilde ∉ name ∧ percent ∉ name

instance (name : Text) : Decidable (Unmarked name) :=
  inferInstanceAs (Decidable (_ ∧ _ ∧ _))

theorem unmarked_definitionsKeyword (draft : Draft) : Unmarked draft.definitionsKeyword := by
  cases draft <;> decide

/-- **A reference into the definitions table has two tokens**, the keyword of the table and the
name. -/
theorem tokens_reference (draft : Draft) {q : Text} (h : Unmarked q) :
    tokens (draft.referenceRoot ++ q) = some [draft.definitionsKeyword, q] := by
  obtain ⟨hslash, htilde, hpercent⟩ := h
  obtain ⟨kslash, ktilde, kpercent⟩ := unmarked_definitionsKeyword draft
  have hroot : draft.referenceRoot ++ q =
      Text.ofString "#" ++ (slash :: (draft.definitionsKeyword ++ slash :: q)) := by
    cases draft <;> rfl
  have hafter : Text.after? "#" (draft.referenceRoot ++ q) =
      some (slash :: (draft.definitionsKeyword ++ slash :: q)) := by
    rw [hroot]
    exact Text.after?_append _ _
  have hpoints : percent ∉ slash :: (draft.definitionsKeyword ++ slash :: q) := by
    have hne : percent ≠ slash := by decide
    simp only [List.mem_cons, List.mem_append, not_or]
    exact ⟨hne, kpercent, hne, hpercent⟩
  have htokens : tokensOf (slash :: (draft.definitionsKeyword ++ slash :: q)) =
      some [draft.definitionsKeyword, q] := by
    rw [tokensOf, if_pos rfl, Text.splitAt_append, Text.splitAt_of_not_mem kslash,
      Text.splitAt_of_not_mem hslash, List.singleton_append]
    simp only [List.mapM_cons, List.mapM_nil, unescape_of_unmarked ktilde,
      unescape_of_unmarked htilde]
    rfl
  unfold tokens
  rw [hafter]
  show (percentDecode _).bind tokensOf = _
  rw [percentDecode_of_unmarked hpoints]
  exact htokens

/-- The entry of a table leads to by its reference. -/
theorem resolve_reference {draft : Draft} {q : Text} (h : Unmarked q) {root table : Json.Entries}
    {entry : Json} (ht : root.attr? draft.definitionsKeyword = some (.obj table))
    (he : table.attr? q = some entry) :
    resolve (.obj root) (draft.referenceRoot ++ q) = some entry := by
  unfold resolve
  rw [tokens_reference draft h]
  show (Json.Entries.attr? draft.definitionsKeyword root).bind (find [q]) = _
  rw [ht]
  show (Json.Entries.attr? q table).bind (find []) = _
  rw [he]
  rfl

end Pointer

end AvroJsonSchema
