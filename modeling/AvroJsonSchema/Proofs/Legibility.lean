import AvroJsonSchema.Proofs.Escapes
import AvroJsonSchema.Proofs.Numerals
import AvroJsonSchema.Proofs.Tables

/-!
# Trees written and read

A tree is read from what is written of it, if its integers are not too long, no text in it holds a
surrogate pair, and the keys of its objects are texts that differ.  Every tree that is read from a
text without surrogates is of this kind.

* **`Json.Legible`**: a tree can be read from what is written of it.
* **`Json.Reader.Spaced`**: between two entries stands a comma with blanks.
* **`Json.Reader.taken?_write`**: a legible tree is taken from the front of a text.
* **`Json.read_pretty`**: a legible tree is read.  **`Json.legible_of_read`**: what is read is legible.
-/

namespace AvroJsonSchema

open Table

namespace Json

/-- A text that stands for itself as a key. -/
def Key.Legible (k : Key) : Prop :=
  ∃ t : Text, k = .text t ∧ t.Pairless

/-- A tree that can be read from what is written of it. -/
inductive Legible : Json → Prop
  | null : Legible .null
  | bool (b : Bool) : Legible (.bool b)
  | int {n : Int} : n.natAbs < 10 ^ Numeral.digitLimit → Legible (.int n)
  | float (x : Binary64) : Legible (.float x)
  | str {t : Text} : t.Pairless → Legible (.str t)
  | arr {items : List Json} : (∀ j ∈ items, Legible j) → Legible (.arr items)
  | obj {entries : Entries} : (keys entries).Nodup → (∀ e ∈ entries, e.1.Legible) →
      (∀ e ∈ entries, Legible e.2) → Legible (.obj entries)

namespace Reader

open Numeral

/-! ### Blanks -/

/-- Nothing but blanks. -/
def Blank (b : Text) : Prop :=
  ∀ c ∈ b, isBlank c = true

theorem blank_nil : Blank [] :=
  List.forall_mem_nil _

theorem first?_blank {b : Text} (hb : Blank b) (s : Text) : first? (b ++ s) = first? s := by
  induction b with
  | nil => rfl
  | cons c b ih =>
    obtain ⟨hc, hb⟩ := List.forall_mem_cons.1 hb
    rw [List.cons_append, first?_cons, if_pos hc, ih hb]

theorem first?_plain {c : CodePoint} (hc : isBlank c = false) (r : Text) :
    first? (c :: r) = some (c, r) := by
  rw [first?_cons, hc, if_neg Bool.false_ne_true]

theorem taken?_value_blank {b : Text} (hb : Blank b) (s : Text) :
    taken? (value (b ++ s)) = taken? (value s) := by
  rw [taken?_value, taken?_value, first?_blank hb]

theorem taken?_items_blank {b : Text} (hb : Blank b) (s : Text) :
    taken? (items (b ++ s)) = taken? (items s) := by
  rw [taken?_items, taken?_items s, taken?_value_blank hb]

theorem taken?_entries_blank {b : Text} (hb : Blank b) (s : Text) :
    taken? (entries (b ++ s)) = taken? (entries s) := by
  rw [taken?_entries, taken?_entries s, first?_blank hb]

/-- A numeral ends before blanks and before a mark. -/
theorem ends_blank {b : Text} (hb : Blank b) {c : CodePoint}
    (hc : c.isAsciiDigit = false ∧ c.val ≠ 46 ∧ c.val ≠ 101 ∧ c.val ≠ 69) (r : Text) :
    Ends (b ++ c :: r) := by
  cases b with
  | nil => exact ends_cons hc
  | cons d b =>
    have hd := hb d List.mem_cons_self
    simp only [isBlank, Bool.or_eq_true, decide_eq_true_eq] at hd
    refine ends_cons ⟨?_, by omega, by omega, by omega⟩
    rw [CodePoint.isAsciiDigit, Bool.and_eq_false_iff, decide_eq_false_iff_not, decide_eq_false_iff_not]
    omega

/-! ### Words and numbers -/

/-- Words and numerals begin with a sign, a digit or the first letter of a word. -/
theorem head_of_takeScalar {c : CodePoint} {r : Text} {x : Json × Text}
    (h : taken? (takeScalar (c :: r)) = some x) :
    c.val = 45 ∨ c.isAsciiDigit = true ∨ ∃ w ∈ words, w.1.head? = some c := by
  rw [taken?_takeScalar, word?_words] at h
  rcases Option.or_eq_some_iff.1 h with hword | ⟨-, hnumber⟩
  · obtain ⟨w, hw, hafter⟩ := List.exists_of_findSome?_eq_some hword
    obtain ⟨q, hq, -⟩ := Option.map_eq_some_iff.1 hafter
    have hne : ∀ w ∈ words, w.1 ≠ [] := by decide
    obtain ⟨d, v, hd⟩ := List.exists_cons_of_ne_nil (hne w hw)
    have happend := Text.eq_of_after? hq
    rw [hd] at happend
    refine .inr (.inr ⟨w, hw, ?_⟩)
    rw [hd, (List.cons.inj happend).1]
    rfl
  · obtain ⟨y, hy, -⟩ := Option.bind_eq_some_iff.1 hnumber
    by_cases hsign : c.val = 45
    · exact .inl hsign
    · rw [take?, takeSign, if_neg hsign] at hy
      obtain ⟨z, hz, -⟩ := Option.map_eq_some_iff.1 hy
      rw [takeWhole?] at hz
      refine .inr (.inl ?_)
      split at hz
      · rename_i hzero
        rw [CodePoint.isAsciiDigit, hzero]
        rfl
      · split at hz
        · assumption
        · cases hz

/-- They begin neither with a blank nor like a text, an object or a list, nor with the mark that closes
a list. -/
theorem plain_of_takeScalar {c : CodePoint} {r : Text} {x : Json × Text}
    (h : taken? (takeScalar (c :: r)) = some x) :
    isBlank c = false ∧ c.val ≠ 34 ∧ c.val ≠ 123 ∧ c.val ≠ 91 ∧ c.val ≠ 93 := by
  have hwords : ∀ w ∈ words, ∀ d, w.1.head? = some d →
      isBlank d = false ∧ d.val ≠ 34 ∧ d.val ≠ 123 ∧ d.val ≠ 91 ∧ d.val ≠ 93 := by
    intro w hw d hd
    simp only [words, List.mem_cons, List.not_mem_nil, or_false] at hw
    rcases hw with rfl | rfl | rfl | rfl | rfl | rfl
    all_goals
      obtain rfl := Option.some.inj hd
      decide
  have hblank : isBlank c = false ↔ c.val ≠ 32 ∧ c.val ≠ 9 ∧ c.val ≠ 10 ∧ c.val ≠ 13 := by
    simp only [isBlank, Bool.or_eq_false_iff, decide_eq_false_iff_not, and_assoc]
  rcases head_of_takeScalar h with hc | hc | ⟨w, hw, hc⟩
  · rw [hblank]
    omega
  · rw [CodePoint.isAsciiDigit, Bool.and_eq_true, decide_eq_true_eq, decide_eq_true_eq] at hc
    rw [hblank]
    omega
  · exact hwords w hw c hc

theorem taken?_value_of_takeScalar {s : Text} {x : Json × Text}
    (h : taken? (takeScalar s) = some x) : taken? (value s) = some x := by
  cases s with
  | nil => exact absurd (taken?_length h) (Nat.not_lt_zero _)
  | cons c r =>
    obtain ⟨hblank, htext, hobject, hlist, -⟩ := plain_of_takeScalar h
    rw [taken?_value, first?_plain hblank, Option.bind_some, valueAfter?, if_neg htext,
      if_neg hobject, if_neg hlist, h]

/-- No value begins with the mark that closes a list. -/
theorem first?_of_value {s : Text} {x : Json × Text} (h : taken? (value s) = some x) :
    ∃ c r, first? s = some (c, r) ∧ c.val ≠ 93 := by
  rw [taken?_value] at h
  obtain ⟨⟨c, r⟩, hfirst, hvalue⟩ := Option.bind_eq_some_iff.1 h
  refine ⟨c, r, hfirst, fun hc => ?_⟩
  rw [valueAfter?] at hvalue
  dsimp only at hvalue
  rw [if_neg (by omega), if_neg (by omega), if_neg (by omega)] at hvalue
  exact (plain_of_takeScalar hvalue).2.2.2.2 hc

/-! ### What is written is read -/

/-- Between two entries of a layout stands a comma, perhaps with blanks after it. -/
def Spaced (layout : Layout) : Prop :=
  ∃ b : Text, Blank b ∧ layout.separator = CodePoint.ofNat 44 :: b

theorem blank_newline (layout : Layout) (depth : Nat) : Blank (layout.newline depth) := by
  rw [Layout.newline]
  split
  · exact blank_nil
  · refine List.forall_mem_cons.2 ⟨by decide, fun c hc => ?_⟩
    rw [(List.mem_replicate.1 hc).2]
    decide

/-- What is written of a text, in front of the rest. -/
theorem writeText_append (t s : Text) : writeText t ++ s =
    CodePoint.ofNat 34 :: (t.flatMap escaped ++ CodePoint.ofNat 34 :: s) := by
  rw [writeText, List.append_assoc, List.append_assoc]
  rfl

theorem taken?_writeText {t : Text} (ht : t.Pairless) (s : Text) :
    taken? (value (writeText t ++ s)) = some (.str t, s) := by
  have hvalue : ∀ r, valueAfter? (CodePoint.ofNat 34, r) =
      (taken? (takeText (CodePoint.ofNat 34 :: r) r)).map (Prod.map .str id) := fun r => if_pos rfl
  rw [writeText_append, taken?_value, first?_plain (by decide), Option.bind_some, hvalue,
    taken?_texts _ ht]
  rfl

/-- Items are read as a list, since they do not begin with the mark that closes it. -/
theorem valueAfter?_list {r : Text} {js : List Json} {s : Text} (h : taken? (items r) = some (js, s)) :
    valueAfter? (CodePoint.ofNat 91, r) = some (.arr js, s) := by
  have hitems := h
  rw [taken?_items] at hitems
  obtain ⟨j, hj, -⟩ := Option.bind_eq_some_iff.1 hitems
  obtain ⟨c, q, hfirst, hc⟩ := first?_of_value hj
  have hvalue : valueAfter? (CodePoint.ofNat 91, r) = (first? r).bind fun y =>
      if y.1.val = 93 then some (.arr [], y.2) else (taken? (items r)).map (Prod.map .arr id) := rfl
  rw [hvalue, hfirst, Option.bind_some, if_neg hc, h]
  rfl

/-- Entries are read as an object, since they begin with a quote. -/
theorem valueAfter?_object {r : Text} {es : List (Key × Json)} {s : Text}
    (h : taken? (entries r) = some (es, s)) :
    valueAfter? (CodePoint.ofNat 123, r) = some (.obj (ofPairs es), s) := by
  have hentries := h
  rw [taken?_entries] at hentries
  obtain ⟨⟨c, q⟩, hfirst, hc⟩ := Option.bind_eq_some_iff.1 hentries
  have hquote : c.val = 34 := by
    by_contra hne
    rw [if_neg hne] at hc
    cases hc
  have hvalue : valueAfter? (CodePoint.ofNat 123, r) = (first? r).bind fun y =>
      if y.1.val = 125 then some (.obj [], y.2)
      else (taken? (entries r)).map (Prod.map (fun es => .obj (ofPairs es)) id) := rfl
  rw [hvalue, hfirst, Option.bind_some, if_neg (by dsimp only; omega), h]
  rfl

variable {layout : Layout} {depth : Nat} {b : Text}

theorem taken?_writeItems (hl : Spaced layout) {js : List Json} (hne : js ≠ [])
    (ih : ∀ j ∈ js, ∀ s, Ends s → taken? (value (write layout depth j ++ s)) = some (j, s))
    (hb : Blank b) (rest : Text) :
    taken? (items (writeItems layout depth js ++ (b ++ CodePoint.ofNat 93 :: rest))) =
      some (js, rest) := by
  obtain ⟨p, hp, hseparator⟩ := hl
  have hblank := blank_newline layout depth
  induction js with
  | nil => exact absurd rfl hne
  | cons j js hjs =>
    obtain ⟨hj, hrest⟩ := List.forall_mem_cons.1 ih
    cases js with
    | nil =>
      rw [writeItems, List.append_assoc, taken?_items, taken?_value_blank hblank,
        hj _ (ends_blank hb (by decide) rest), Option.bind_some]
      dsimp only
      rw [first?_blank hb, first?_plain (by decide), Option.bind_some]
      exact if_pos rfl
    | cons i js =>
      have htext : writeItems layout depth (j :: i :: js) ++ (b ++ CodePoint.ofNat 93 :: rest) =
          layout.newline depth ++ (write layout depth j ++ CodePoint.ofNat 44 :: (p ++
            (writeItems layout depth (i :: js) ++ (b ++ CodePoint.ofNat 93 :: rest)))) := by
        rw [writeItems, hseparator]
        simp only [List.append_assoc, List.cons_append]
      rw [htext, taken?_items, taken?_value_blank hblank, hj _ (ends_cons (by decide)), Option.bind_some]
      dsimp only
      rw [first?_plain (by decide), Option.bind_some,
        if_neg (show ¬(CodePoint.ofNat 44).val = 93 by decide), if_pos (by rfl),
        taken?_items_blank hp, hjs (List.cons_ne_nil _ _) hrest]
      rfl

/-- An entry is read up to what follows its value. -/
theorem taken?_entry (hb : Blank b) {t : Text} (ht : t.Pairless) {w s : Text} {j : Json}
    (hw : taken? (value (w ++ s)) = some (j, s)) :
    taken? (entries (b ++ (writeText t ++ (Text.ofString ": " ++ (w ++ s))))) =
      (first? s).bind fun e =>
        if e.1.val = 125 then some ([(.text t, j)], e.2)
        else if e.1.val = 44 then (taken? (entries e.2)).map (Prod.map ((.text t, j) :: ·) id)
        else none := by
  have hcolon : Text.ofString ": " ++ (w ++ s) =
      CodePoint.ofNat 58 :: ([CodePoint.ofNat 32] ++ (w ++ s)) := rfl
  have hspace : Blank [CodePoint.ofNat 32] := by
    intro c hc
    rw [List.mem_singleton.1 hc]
    decide
  rw [hcolon, taken?_entries_blank hb, writeText_append, taken?_entries, first?_plain (by decide),
    Option.bind_some, if_pos (by rfl), taken?_texts _ ht, Option.bind_some]
  dsimp only
  rw [first?_plain (by decide), Option.bind_some, if_pos (by rfl), taken?_value_blank hspace, hw,
    Option.bind_some]

theorem taken?_writeEntries (hl : Spaced layout) {es : List (Key × Json)} (hne : es ≠ [])
    (hkeys : ∀ e ∈ es, e.1.Legible)
    (ih : ∀ e ∈ es, ∀ s, Ends s → taken? (value (write layout depth e.2 ++ s)) = some (e.2, s))
    (hb : Blank b) (rest : Text) :
    taken? (entries (writeEntries layout depth es ++ (b ++ CodePoint.ofNat 125 :: rest))) =
      some (es, rest) := by
  obtain ⟨p, hp, hseparator⟩ := hl
  have hblank := blank_newline layout depth
  induction es with
  | nil => exact absurd rfl hne
  | cons e es hes =>
    obtain ⟨⟨t, ht, hpairless⟩, hmore⟩ := List.forall_mem_cons.1 hkeys
    obtain ⟨he, hrest⟩ := List.forall_mem_cons.1 ih
    obtain ⟨k, j⟩ := e
    cases ht
    cases es with
    | nil =>
      have htext : writeEntries layout depth [(.text t, j)] ++ (b ++ CodePoint.ofNat 125 :: rest) =
          layout.newline depth ++ (writeText t ++ (Text.ofString ": " ++
            (write layout depth j ++ (b ++ CodePoint.ofNat 125 :: rest)))) := by
        rw [writeEntries]
        simp only [List.append_assoc, keyText]
      rw [htext, taken?_entry hblank hpairless (he _ (ends_blank hb (by decide) rest)), first?_blank hb,
        first?_plain (by decide), Option.bind_some]
      exact if_pos rfl
    | cons e' es =>
      have htext : writeEntries layout depth ((.text t, j) :: e' :: es) ++
            (b ++ CodePoint.ofNat 125 :: rest) =
          layout.newline depth ++ (writeText t ++ (Text.ofString ": " ++ (write layout depth j ++
            CodePoint.ofNat 44 :: (p ++
              (writeEntries layout depth (e' :: es) ++ (b ++ CodePoint.ofNat 125 :: rest)))))) := by
        rw [writeEntries, hseparator]
        simp only [List.append_assoc, List.cons_append, keyText]
      rw [htext, taken?_entry hblank hpairless (he _ (ends_cons (by decide))), first?_plain (by decide),
        Option.bind_some, if_neg (show ¬(CodePoint.ofNat 44).val = 125 by decide), if_pos (by rfl),
        taken?_entries_blank hp, hes (List.cons_ne_nil _ _) hmore hrest]
      rfl

theorem taken?_list (hl : Spaced layout) {js : List Json}
    (ih : ∀ j ∈ js, ∀ s, Ends s → taken? (value (write layout (depth + 1) j ++ s)) = some (j, s))
    (s : Text) : taken? (value (write layout depth (.arr js) ++ s)) = some (.arr js, s) := by
  cases js with
  | nil =>
    rw [write]
    have htext : Text.ofString "[]" ++ s = CodePoint.ofNat 91 :: CodePoint.ofNat 93 :: s := rfl
    rw [htext, taken?_value, first?_plain (by decide), Option.bind_some]
    rfl
  | cons j js =>
    rw [write]
    have hitems := taken?_writeItems hl (List.cons_ne_nil j js) ih (blank_newline layout depth) s
    have htext : Text.ofString "[" ++ writeItems layout (depth + 1) (j :: js) ++
          layout.newline depth ++ Text.ofString "]" ++ s =
        CodePoint.ofNat 91 :: (writeItems layout (depth + 1) (j :: js) ++
          (layout.newline depth ++ CodePoint.ofNat 93 :: s)) := by
      simp only [List.append_assoc]
      rfl
    rw [htext, taken?_value, first?_plain (by decide), Option.bind_some, valueAfter?_list hitems]

theorem taken?_object (hl : Spaced layout) {es : Entries} (hnodup : (keys es).Nodup)
    (hkeys : ∀ e ∈ es, e.1.Legible)
    (ih : ∀ e ∈ es, ∀ s, Ends s → taken? (value (write layout (depth + 1) e.2 ++ s)) = some (e.2, s))
    (s : Text) : taken? (value (write layout depth (.obj es) ++ s)) = some (.obj es, s) := by
  cases es with
  | nil =>
    rw [write]
    have htext : Text.ofString "\x7b\x7d" ++ s = CodePoint.ofNat 123 :: CodePoint.ofNat 125 :: s := rfl
    rw [htext, taken?_value, first?_plain (by decide), Option.bind_some]
    rfl
  | cons e es =>
    rw [write]
    have hentries := taken?_writeEntries hl (List.cons_ne_nil e es) hkeys ih (blank_newline layout depth) s
    have htext : Text.ofString "\x7b" ++ writeEntries layout (depth + 1) (e :: es) ++
          layout.newline depth ++ Text.ofString "\x7d" ++ s =
        CodePoint.ofNat 123 :: (writeEntries layout (depth + 1) (e :: es) ++
          (layout.newline depth ++ CodePoint.ofNat 125 :: s)) := by
      simp only [List.append_assoc]
      rfl
    -- no entry replaces another one, since the keys differ
    have hsharp : ∀ e' ∈ e :: es, Sharp e'.1 := by
      intro e' he'
      obtain ⟨t, ht, -⟩ := hkeys e' he'
      exact ht ▸ Key.sharp_text t
    rw [htext, taken?_value, first?_plain (by decide), Option.bind_some, valueAfter?_object hentries,
      ofPairs, merge_empty hsharp hnodup]

/-- **A legible tree is taken from what is written of it**, in front of anything that could not belong
to a number. -/
theorem taken?_write (hl : Spaced layout) {j : Json} (hj : j.Legible) (depth : Nat) {s : Text}
    (hs : Ends s) : taken? (value (write layout depth j ++ s)) = some (j, s) := by
  induction hj generalizing depth s with
  | null =>
    rw [write]
    exact taken?_value_of_takeScalar (taken?_word [] (words.drop 1) rfl (by simp) s)
  | bool b =>
    cases b with
    | true =>
      rw [write]
      exact taken?_value_of_takeScalar (taken?_word (words.take 1) (words.drop 2) rfl (by decide) s)
    | false =>
      rw [write]
      exact taken?_value_of_takeScalar (taken?_word (words.take 2) (words.drop 3) rfl (by decide) s)
  | int hn =>
    rw [write]
    exact taken?_value_of_takeScalar (taken?_int hn hs)
  | float x =>
    rw [write]
    exact taken?_value_of_takeScalar (taken?_float x hs)
  | str ht =>
    rw [write]
    exact taken?_writeText ht s
  | arr _ ih => exact taken?_list hl (fun j hj s hs => ih j hj (depth + 1) hs) s
  | obj hnodup hkeys _ ih =>
    exact taken?_object hl hnodup hkeys (fun e he s hs => ih e he (depth + 1) hs) s

end Reader

/-- **A legible tree is read from its text.** -/
theorem read_pretty {j : Json} (h : j.Legible) : read j.pretty = .ok j := by
  have hspaced : Reader.Spaced .block := ⟨[], Reader.blank_nil, rfl⟩
  have hvalue := Reader.taken?_write hspaced h 0 Numeral.ends_nil
  have hmark : ¬hasByteOrderMark j.pretty = true := by
    have hascii := isAscii_pretty j
    cases hp : j.pretty with
    | nil => exact Bool.false_ne_true
    | cons c r =>
      rw [hp] at hascii
      intro hc
      have hlow := (Text.isAscii_cons.1 hascii).1
      have hhigh : c.val = 0xFEFF := of_decide_eq_true hc
      omega
  have hread : (read j.pretty).toOption = some j := by
    rw [List.append_nil] at hvalue
    rw [toOption_read, if_neg hmark, Reader.toOption_whole, pretty, hvalue]
    rfl
  cases hr : read j.pretty with
  | error fault =>
    rw [hr] at hread
    cases hread
  | ok i =>
    rw [hr] at hread
    rw [Option.some.inj hread]

/-! ### Legible objects -/

/-- An entry of a legible object. -/
def EntryLegible (e : Key × Json) : Prop :=
  e.1.Legible ∧ e.2.Legible

theorem respects_entryLegible : Respects EntryLegible := by
  intro e e' hv hk h
  obtain ⟨⟨t, ht, hpairless⟩, hvalue⟩ := h
  rw [ht] at hk
  exact ⟨⟨t, (Key.sharp_text t e.1).1.1 hk, hpairless⟩, hv ▸ hvalue⟩

/-- Entries of a legible object. -/
abbrev Entries.Legible (t : Entries) : Prop :=
  (Json.obj t).Legible

namespace Entries.Legible

variable {t u : Entries} {k : Key} {v : Json}

theorem entry (h : t.Legible) : ∀ e ∈ t, EntryLegible e := by
  cases h with
  | obj _ hkeys hvalues => exact fun e he => ⟨hkeys e he, hvalues e he⟩

theorem once (h : t.Legible) (name : Text) : Once (Key.text name) t := by
  cases h with
  | obj hnodup _ _ => exact once_of_nodup hnodup

theorem of_entries (honce : ∀ name, Once (Key.text name) t) (h : ∀ e ∈ t, EntryLegible e) :
    t.Legible := by
  refine .obj (nodup_keys_of_once fun e he => ?_) (fun e he => (h e he).1) fun e he => (h e he).2
  obtain ⟨name, hname, -⟩ := (h e he).1
  exact hname ▸ honce name

theorem empty : Entries.Legible [] :=
  .of_entries (fun _ => trivial) (List.forall_mem_nil _)

theorem singleton (hk : k.Legible) (hv : v.Legible) : Entries.Legible [(k, v)] :=
  .of_entries (fun _ => once_singleton _ _) (List.forall_mem_singleton.2 ⟨hk, hv⟩)

theorem set (h : t.Legible) (hk : k.Legible) (hv : v.Legible) :
    Entries.Legible (Table.set k v t) :=
  .of_entries (fun name => (h.once name).set (Key.sharp_text name) k v)
    (forall_mem_set respects_entryLegible h.entry ⟨hk, hv⟩)

theorem setIfAbsent (h : t.Legible) (hk : k.Legible) (hv : v.Legible) :
    Entries.Legible (Table.setIfAbsent k v t) :=
  .of_entries (fun name => (h.once name).setIfAbsent (Key.sharp_text name) k v)
    (forall_mem_setIfAbsent respects_entryLegible h.entry ⟨hk, hv⟩)

theorem erase (h : t.Legible) (k : Key) : Entries.Legible (Table.erase k t) :=
  .of_entries (fun name => (h.once name).erase k) (forall_mem_erase h.entry)

theorem merge (h : t.Legible) (hu : ∀ e ∈ u, EntryLegible e) :
    Entries.Legible (Table.merge t u) :=
  .of_entries (fun name => (h.once name).merge (Key.sharp_text name) u)
    (forall_mem_merge respects_entryLegible h.entry hu)

theorem mergeAbsent (h : t.Legible) (hu : ∀ e ∈ u, EntryLegible e) :
    Entries.Legible (Table.mergeAbsent t u) :=
  .of_entries (fun name => (h.once name).mergeAbsent (Key.sharp_text name) u)
    (forall_mem_mergeAbsent respects_entryLegible h.entry hu)

theorem ofPairs (h : ∀ e ∈ t, EntryLegible e) : Entries.Legible (Table.ofPairs t) :=
  empty.merge h

theorem attr (h : t.Legible) {name : Text} (ha : t.attr? name = some v) : v.Legible := by
  obtain ⟨k, hk⟩ := mem_of_get? ha
  exact (h.entry _ hk).2

end Entries.Legible

/-! ### What is read is legible -/

namespace Numeral

theorem takeDigits_suffix (s : Text) : (takeDigits s).2 <:+ s :=
  List.dropWhile_suffix _

theorem isDigits_takeDigits (s : Text) : (takeDigits s).1.IsDigits :=
  List.all_eq_true.1 List.all_takeWhile

theorem takeSign_suffix (s : Text) : (takeSign s).2 <:+ s := by
  unfold takeSign
  split
  · exact List.suffix_refl _
  · split
    · exact List.suffix_cons _ _
    · exact List.suffix_refl _

theorem takeWhole?_ok {s w r : Text} (h : takeWhole? s = some (w, r)) : w.IsDigits ∧ r <:+ s := by
  unfold takeWhole? at h
  split at h
  · cases h
  · rename_i c q
    split at h
    · rename_i hc
      cases h
      refine ⟨fun d hd => ?_, List.suffix_cons _ _⟩
      rw [List.mem_singleton.1 hd, CodePoint.isAsciiDigit, hc]
      rfl
    · split at h
      · obtain ⟨rfl, rfl⟩ := Prod.mk.inj (Option.some.inj h)
        exact ⟨isDigits_takeDigits (c :: q), takeDigits_suffix (c :: q)⟩
      · cases h

theorem takeFraction_suffix (s : Text) : (takeFraction s).2 <:+ s := by
  cases s with
  | nil => exact List.suffix_refl _
  | cons c r =>
    rw [takeFraction_cons]
    split
    · exact (takeDigits_suffix r).trans (List.suffix_cons c r)
    · exact List.suffix_refl _

theorem takeExponentSign_suffix (s : Text) : (takeExponentSign s).2 <:+ s := by
  unfold takeExponentSign
  split
  · exact List.suffix_refl _
  · split
    · exact List.suffix_cons _ _
    · exact takeSign_suffix _

theorem takeExponent_suffix (s : Text) : (takeExponent s).2 <:+ s := by
  unfold takeExponent
  split
  · exact List.suffix_refl _
  · rename_i c r
    split
    · dsimp only
      split
      · exact List.suffix_refl _
      · rename_i digits rest _ heq
        have hdigits := takeDigits_suffix (takeExponentSign r).2
        rw [heq] at hdigits
        exact hdigits.trans ((takeExponentSign_suffix r).trans (List.suffix_cons c r))
    · exact List.suffix_refl _

theorem take?_ok {s r : Text} {n : Numeral} (h : take? s = some (n, r)) :
    n.whole.IsDigits ∧ r <:+ s := by
  unfold take? at h
  dsimp only at h
  obtain ⟨⟨w, q⟩, hw, heq⟩ := Option.map_eq_some_iff.1 h
  obtain ⟨hdigits, hq⟩ := takeWhole?_ok hw
  cases heq
  exact ⟨hdigits, (takeExponent_suffix _).trans ((takeFraction_suffix q).trans
    (hq.trans (takeSign_suffix s)))⟩

theorem legible_value {n : Numeral} (hn : n.whole.IsDigits) {j : Json} (h : n.value = .ok j) :
    j.Legible := by
  unfold value at h
  split at h
  · split at h
    · cases h
    · rename_i hlength
      have hlt : Text.digitsValue n.whole < 10 ^ digitLimit :=
        (Text.digitsValue_lt hn).trans_le (Nat.pow_le_pow_right (by decide) (Nat.le_of_not_lt hlength))
      cases h
      refine .int ?_
      split
      · rwa [Int.natAbs_neg]
      · exact hlt
  · cases h
    exact .float _

end Numeral

namespace Reader

open Numeral

theorem first?_suffix {s r : Text} {c : CodePoint} (h : first? s = some (c, r)) : c :: r <:+ s := by
  induction s with
  | nil => cases h
  | cons d s ih =>
    rw [first?_cons] at h
    split at h
    · exact (ih h).trans (List.suffix_cons d s)
    · cases h
      exact List.suffix_refl _

theorem first?_rest {s r : Text} {c : CodePoint} (h : first? s = some (c, r)) : r <:+ s :=
  (List.suffix_cons c r).trans (first?_suffix h)

theorem legible_takeScalar {s r : Text} {j : Json} (h : taken? (takeScalar s) = some (j, r)) :
    j.Legible ∧ r <:+ s := by
  have hwords : ∀ w ∈ words, w.2.Legible := by
    intro w hw
    simp only [words, List.mem_cons, List.not_mem_nil, or_false] at hw
    rcases hw with rfl | rfl | rfl | rfl | rfl | rfl
    · exact .null
    · exact .bool true
    · exact .bool false
    all_goals exact .float _
  rw [taken?_takeScalar, word?_words] at h
  rcases Option.or_eq_some_iff.1 h with hword | ⟨-, hn⟩
  · obtain ⟨w, hw, hafter⟩ := List.exists_of_findSome?_eq_some hword
    obtain ⟨q, hq, heq⟩ := Option.map_eq_some_iff.1 hafter
    cases heq
    exact ⟨hwords w hw, w.1, (Text.eq_of_after? hq).symm⟩
  · obtain ⟨⟨n, q⟩, hq, hvalue⟩ := Option.bind_eq_some_iff.1 hn
    obtain ⟨hdigits, hsuffix⟩ := take?_ok hq
    obtain ⟨i, hi, heq⟩ := Option.map_eq_some_iff.1 hvalue
    cases heq
    refine ⟨Numeral.legible_value hdigits ?_, hsuffix⟩
    cases hv : n.value with
    | error count =>
      rw [hv] at hi
      cases hi
    | ok i =>
      rw [hv] at hi
      rw [Option.some.inj hi]

/-- What the readers take from the front of a text is legible, and the rest stands at its end. -/
structure ReadsLegible (s : Text) : Prop where
  value : ∀ j r, taken? (value s) = some (j, r) → j.Legible ∧ r <:+ s
  items : ∀ js r, taken? (items s) = some (js, r) → (∀ j ∈ js, j.Legible) ∧ r <:+ s
  entries : ∀ es r, taken? (entries s) = some (es, r) → (∀ e ∈ es, EntryLegible e) ∧ r <:+ s

section Step

variable {s : Text} (hs : s.IsScalar)
  (ih : ∀ q : Text, q <:+ s → q.length < s.length → ReadsLegible q)

include hs ih

theorem legible_value {j : Json} {r : Text} (h : taken? (value s) = some (j, r)) :
    j.Legible ∧ r <:+ s := by
  rw [taken?_value] at h
  obtain ⟨⟨c, q⟩, hfirst, hvalue⟩ := Option.bind_eq_some_iff.1 h
  have hq := first?_rest hfirst
  have hlt := (first?_spec hfirst).2
  have hshorter := ih q hq hlt
  rw [valueAfter?] at hvalue
  dsimp only at hvalue
  split at hvalue
  · obtain ⟨⟨t, p⟩, ht, heq⟩ := Option.map_eq_some_iff.1 hvalue
    cases heq
    obtain ⟨hp, hpairless, -⟩ := pairless_of_taken? (hs.of_suffix hq) ht
    exact ⟨.str hpairless, hp.trans hq⟩
  · split at hvalue
    · obtain ⟨⟨d, p⟩, hd, hobject⟩ := Option.bind_eq_some_iff.1 hvalue
      split at hobject
      · cases hobject
        exact ⟨Entries.Legible.empty, (first?_rest hd).trans hq⟩
      · obtain ⟨⟨es, p⟩, hes, heq⟩ := Option.map_eq_some_iff.1 hobject
        cases heq
        obtain ⟨hentries, hp⟩ := hshorter.entries es p hes
        exact ⟨Entries.Legible.ofPairs hentries, hp.trans hq⟩
    · split at hvalue
      · obtain ⟨⟨d, p⟩, hd, hlist⟩ := Option.bind_eq_some_iff.1 hvalue
        split at hlist
        · cases hlist
          exact ⟨.arr (List.forall_mem_nil _), (first?_rest hd).trans hq⟩
        · obtain ⟨⟨js, p⟩, hjs, heq⟩ := Option.map_eq_some_iff.1 hlist
          cases heq
          obtain ⟨hitems, hp⟩ := hshorter.items js p hjs
          exact ⟨.arr hitems, hp.trans hq⟩
      · obtain ⟨hj, hr⟩ := legible_takeScalar hvalue
        exact ⟨hj, hr.trans (first?_suffix hfirst)⟩

theorem legible_items {js : List Json} {r : Text} (h : taken? (items s) = some (js, r)) :
    (∀ j ∈ js, j.Legible) ∧ r <:+ s := by
  rw [taken?_items] at h
  obtain ⟨⟨j, p⟩, hj, hp⟩ := Option.bind_eq_some_iff.1 h
  obtain ⟨hlegible, hsuffix⟩ := legible_value hs ih hj
  have hlength := taken?_length hj
  obtain ⟨⟨d, q⟩, hd, hq⟩ := Option.bind_eq_some_iff.1 hp
  have hqs := (first?_rest hd).trans hsuffix
  split at hq
  · cases hq
    exact ⟨List.forall_mem_singleton.2 hlegible, hqs⟩
  · split at hq
    · obtain ⟨⟨is, p'⟩, his, heq⟩ := Option.map_eq_some_iff.1 hq
      cases heq
      obtain ⟨hitems, hp'⟩ := (ih q hqs ((first?_spec hd).2.trans hlength)).items is p' his
      exact ⟨List.forall_mem_cons.2 ⟨hlegible, hitems⟩, hp'.trans hqs⟩
    · cases hq

theorem legible_entries {es : List (Key × Json)} {r : Text} (h : taken? (entries s) = some (es, r)) :
    (∀ e ∈ es, EntryLegible e) ∧ r <:+ s := by
  rw [taken?_entries] at h
  obtain ⟨⟨c, q⟩, hfirst, h⟩ := Option.bind_eq_some_iff.1 h
  split at h
  · obtain ⟨⟨t, p⟩, ht, h⟩ := Option.bind_eq_some_iff.1 h
    obtain ⟨⟨d, p₁⟩, hd, h⟩ := Option.bind_eq_some_iff.1 h
    split at h
    · obtain ⟨⟨j, p₂⟩, hj, h⟩ := Option.bind_eq_some_iff.1 h
      obtain ⟨⟨e, p₃⟩, he, h⟩ := Option.bind_eq_some_iff.1 h
      -- from the front on: the quote, the name, the colon, the value and the mark after it
      have hq := first?_rest hfirst
      obtain ⟨hp, hpairless, -⟩ := pairless_of_taken? (hs.of_suffix hq) ht
      have hp₁ := (first?_rest hd).trans (hp.trans hq)
      have hlt₁ : p₁.length < s.length :=
        ((first?_spec hd).2.trans (taken?_length ht)).trans (first?_spec hfirst).2
      obtain ⟨hlegible, hp₂⟩ := (ih p₁ hp₁ hlt₁).value j p₂ hj
      have hp₃ := (first?_rest he).trans (hp₂.trans hp₁)
      have hlt₃ : p₃.length < s.length :=
        ((first?_spec he).2.trans (taken?_length hj)).trans hlt₁
      have hentry : EntryLegible (.text t, j) := ⟨⟨t, rfl, hpairless⟩, hlegible⟩
      split at h
      · cases h
        exact ⟨List.forall_mem_singleton.2 hentry, hp₃⟩
      · split at h
        · obtain ⟨⟨es', p₄⟩, hes, heq⟩ := Option.map_eq_some_iff.1 h
          cases heq
          obtain ⟨hentries, hp₄⟩ := (ih p₃ hp₃ hlt₃).entries es' p₄ hes
          exact ⟨List.forall_mem_cons.2 ⟨hentry, hentries⟩, hp₄.trans hp₃⟩
        · cases h
    · cases h
  · cases h

end Step

/-- From a text without surrogates only legible trees are taken. -/
theorem readsLegible {s : Text} (hs : s.IsScalar) : ReadsLegible s := by
  induction hn : s.length using Nat.strongRecOn generalizing s with
  | _ n ih =>
    subst hn
    have hshorter : ∀ q : Text, q <:+ s → q.length < s.length → ReadsLegible q :=
      fun q hq hlt => ih q.length hlt (hs.of_suffix hq) rfl
    exact ⟨fun _ _ h => legible_value hs hshorter h, fun _ _ h => legible_items hs hshorter h,
      fun _ _ h => legible_entries hs hshorter h⟩

end Reader

/-- **What is read from a text without surrogates is legible.** -/
theorem legible_of_read {t : Text} {j : Json} (ht : t.IsScalar) (h : read t = .ok j) : j.Legible := by
  have hread := toOption_read t
  rw [h] at hread
  split at hread
  · cases hread
  · rw [Reader.toOption_whole] at hread
    obtain ⟨⟨i, r⟩, hi, hrest⟩ := Option.bind_eq_some_iff.1 hread.symm
    split at hrest
    · cases hrest
      exact ((Reader.readsLegible ht).value i r hi).1
    · cases hrest

end Json

end AvroJsonSchema
