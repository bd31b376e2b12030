import Mathlib.Data.List.Nodup
import AvroJsonSchema.Proofs.LegibleOutlines

/-!
# Documents read back

The text of a document is a JSON text of its own.  Read as a schema, it gives the document again: the
same keys in the same order, the same texts, whatever stands in them, and the same numbers, and no key
of an object is written twice.  The schema has to come from a text without surrogates, where only
escapes stand for them, and the names of its fields have to be texts, since any other name would be
read as a text from the key that is written of it.

* **`Json.Part`**: a tree stands in another one.
* **`Document.legible_ofSchema`**: the document of a legible schema is legible.
* **`Document.ofText_reads_back`**: the text of a document is read as the document.
-/

namespace AvroJsonSchema

open Table Schema

namespace Json

/-- A tree stands somewhere in another one, or is it. -/
inductive Part : Json → Json → Prop
  | self (j : Json) : Part j j
  | item {i j : Json} {items : List Json} : j ∈ items → Part i j → Part i (.arr items)
  | value {i : Json} {e : Key × Json} {entries : Entries} :
      e ∈ entries → Part i e.2 → Part i (.obj entries)

theorem Legible.part {i j : Json} (h : j.Legible) (hi : Part i j) : i.Legible := by
  induction hi with
  | self => exact h
  | item hj _ ih => exact ih (legible_of_mem h hj)
  | value he _ ih => exact ih (Entries.Legible.entry h _ he).2

/-- What is written of the keys of a legible object differs. -/
theorem nodup_keyText {entries : Entries} (h : entries.Legible) :
    (entries.map fun e => keyText e.1).Nodup := by
  have hkeys : (entries.map fun e => keyText e.1).map Key.text = keys entries := by
    rw [List.map_map, keys]
    refine List.map_congr_left fun e he => ?_
    obtain ⟨t, ht, -⟩ := (h.entry e he).1
    show Key.text (keyText e.1) = e.1
    rw [ht, keyText]
  refine List.Nodup.of_map Key.text ?_
  rw [hkeys]
  exact nodup_keys_of_once fun e he => by
    obtain ⟨t, ht, -⟩ := (h.entry e he).1
    exact ht ▸ h.once t

end Json

namespace Document

open Json

variable {ledger : Ledger} {options : Options}

theorem legible_definitionsTable (h : ledger.Legible) :
    (definitionsTable (ledger.written options [])).Legible := by
  have hentries : ∀ e ∈ (ledger.written options []).definitions, e.1.Pairless ∧ e.2.Legible := by
    refine forall_mem_merge (fun e e' hv hk he => ?_) (List.forall_mem_nil _) fun e he => ?_
    · have heq : e = e' := Prod.ext (eq_of_beq hk) hv
      exact heq ▸ he
    · obtain ⟨e', he', rfl⟩ := List.mem_map.1 he
      obtain ⟨hq, ho⟩ := h.finished e' he'
      exact ⟨hq, Outline.legible_write ho⟩
  have hnodup : (keys (ledger.written options []).definitions).Nodup :=
    nodup_keys_of_once fun e _ => Once.merge (t := []) (sharp_of_lawful e.1) trivial _
  have hkeys : keys ((ledger.written options []).definitions.map fun e => (Key.text e.1, Json.obj e.2)) =
      (keys (ledger.written options []).definitions).map Key.text := by
    rw [keys, keys, List.map_map, List.map_map]
    rfl
  refine Entries.Legible.of_entries (fun name => once_of_nodup ?_) fun e he => ?_
  · rw [hkeys]
    exact hnodup.map fun _ _ heq => Key.text.inj heq
  · obtain ⟨e', he', rfl⟩ := List.mem_map.1 he
    obtain ⟨hq, hvalue⟩ := hentries e' he'
    exact ⟨⟨e'.1, rfl, hq⟩, hvalue⟩

theorem legible_header (h : ledger.Legible) (draft : Draft) :
    (header draft (ledger.written options [])).Legible := by
  have hurl : EntryLegible (.text "$schema", .str draft.schemaUrl) :=
    ⟨Key.legible_of_scalar (by decide), legible_of_scalar (by cases draft <;> decide)⟩
  have hkeyword : (Key.text draft.definitionsKeyword).Legible :=
    Key.legible_of_scalar (by cases draft <;> decide)
  have hnodup : [Key.text "$schema", Key.text draft.definitionsKeyword].Nodup := by
    cases draft <;> decide
  unfold header
  split
  · exact .singleton hurl.1 hurl.2
  · exact .of_entries (fun name => once_of_nodup hnodup) (List.forall_mem_cons.2
      ⟨hurl, List.forall_mem_singleton.2 ⟨hkeyword, legible_definitionsTable h⟩⟩)

/-- **The document of a legible schema is legible**, if the names of the fields are texts. -/
theorem legible_ofSchema {schema document : Json} (hs : schema.Legible) (hn : NamesFieldsByTexts schema)
    (h : ofSchema options.setup schema = .ok document) :
    ∃ entries : Json.Entries, document = .obj entries ∧ entries.Legible := by
  rw [ofSchema_eq_written] at h
  have hnode := Outlining.legible_node options.flattenNullableUnions hs hn [] Text.pairless_nil .empty
  generalize hledger : (Outline.ofSchema options.flattenNullableUnions schema).2 = ledger at h
  cases hresult : (Outline.ofSchema options.flattenNullableUnions schema).1 with
  | error fault =>
    rw [hresult] at h
    cases h
  | ok outline =>
    rw [hresult] at h
    cases h
    obtain ⟨hlegible, houtline⟩ := hnode outline ledger .empty (Prod.ext hresult hledger)
    exact ⟨_, rfl, (legible_header hlegible options.draft).merge
      (Entries.Legible.entry (Outline.legible_write houtline))⟩

/-- A legible object is read as a schema. -/
theorem parse_pretty {entries : Json.Entries} (h : entries.Legible) :
    Schema.parse (Json.obj entries).pretty = .ok (.obj entries) := by
  rw [Schema.parse, read_pretty h]

theorem legible_of_parse {t : Text} {schema : Json} (ht : t.IsScalar)
    (h : Schema.parse t = .ok schema) : schema.Legible := by
  have hread : (read t).toOption.bind schema? = some schema := by
    rw [← toOption_parse, h]
    rfl
  obtain ⟨j, hj, hschema⟩ := Option.bind_eq_some_iff.1 hread
  have hsame : j = schema := by
    cases j <;> cases hschema <;> rfl
  cases hr : read t with
  | error fault =>
    rw [hr] at hj
    cases hj
  | ok i =>
    rw [hr] at hj
    exact legible_of_read ht (hr.trans (congrArg _ ((Option.some.inj hj).trans hsame)))

/-- **The text of a document is read as the document.**  Whatever the options, the text is ASCII; read
as a schema it gives the document of the schema again, and in no object of it are two keys written
alike. -/
theorem ofText_reads_back (options : Options) (t text : Text) (schema : Json) (ht : t.IsScalar)
    (hs : Schema.parse t = .ok schema) (hn : NamesFieldsByTexts schema)
    (h : ofText options.setup t = .ok text) :
    ∃ document, ofSchema options.setup schema = .ok document ∧ text = document.pretty ∧
      text.IsAscii ∧ Schema.parse text = .ok document ∧
      ∀ entries : Json.Entries, Part (.obj entries) document →
        (entries.map fun e => keyText e.1).Nodup := by
  obtain ⟨parsed, document, hparsed, hdocument, rfl⟩ := ofText_ok h
  obtain rfl : schema = parsed := Except.ok.inj (hs.symm.trans hparsed)
  obtain ⟨entries, rfl, hlegible⟩ := legible_ofSchema (legible_of_parse ht hs) hn hdocument
  exact ⟨_, hdocument, rfl, isAscii_pretty _, parse_pretty hlegible,
    fun inner hinner => nodup_keyText (Legible.part hlegible hinner)⟩

/-- A record whose namespace and name are the halves of a pair of surrogates, with a field of which
the default is not a number. -/
def halves : Json.Entries :=
  [(.text "type", "record"), (.text "namespace", .str [CodePoint.ofNat 0xD83D]),
    (.text "name", .str [CodePoint.ofNat 0xDE00]), (.text "fields", .arr [
      .obj [(.text "name", "ratio"), (.text "type", "float"), (.text "default", .float .nan)]])]

theorem legible_halves : halves.Legible := by
  have hfield : Entries.Legible
      [(.text "name", "ratio"), (.text "type", "float"), (.text "default", .float .nan)] := by
    refine .of_entries (fun name => once_of_nodup (by decide)) fun e he => ?_
    simp only [List.mem_cons, List.not_mem_nil, or_false] at he
    rcases he with rfl | rfl | rfl
    · exact ⟨Key.legible_of_scalar (by decide), legible_of_scalar (by decide)⟩
    · exact ⟨Key.legible_of_scalar (by decide), legible_of_scalar (by decide)⟩
    · exact ⟨Key.legible_of_scalar (by decide), .float _⟩
  refine .of_entries (fun name => once_of_nodup (by decide)) fun e he => ?_
  simp only [halves, List.mem_cons, List.not_mem_nil, or_false] at he
  rcases he with rfl | rfl | rfl | rfl
  · exact ⟨Key.legible_of_scalar (by decide), legible_of_scalar (by decide)⟩
  · exact ⟨Key.legible_of_scalar (by decide), .str (List.IsChain.singleton _)⟩
  · exact ⟨Key.legible_of_scalar (by decide), .str (List.IsChain.singleton _)⟩
  · exact ⟨Key.legible_of_scalar (by decide), .arr (List.forall_mem_singleton.2 hfield)⟩

theorem namesFieldsByTexts_halves : NamesFieldsByTexts (.obj halves) := by
  intro attributes list hb hrecord hlist field hf name hname
  have hs : shape (.obj halves) = .record [CodePoint.ofNat 0xDE00] halves := rfl
  rcases below_record hs hb with hself | ⟨list', field', i, hl, hf', ht, hi⟩
  · cases hself
    cases hlist
    cases List.mem_singleton.1 hf
    cases hname
    exact ⟨_, rfl⟩
  · cases hl
    cases List.mem_singleton.1 hf'
    cases ht
    cases below_str hi

/-- The document of the record is read back from its text, in which the halves stay apart. -/
theorem ofText_reads_back_halves :
    (Json.obj halves).pretty.IsScalar ∧ Schema.parse (Json.obj halves).pretty = .ok (.obj halves) ∧
      NamesFieldsByTexts (.obj halves) ∧
      ∃ text, ofText Options.strict.setup (Json.obj halves).pretty = .ok text ∧
        ∃ document, ofSchema Options.strict.setup (.obj halves) = .ok document ∧
          text = document.pretty ∧ text.IsAscii ∧ Schema.parse text = .ok document ∧
          ∀ entries : Json.Entries, Part (.obj entries) document →
            (entries.map fun e => keyText e.1).Nodup := by
  have hscalar := (isAscii_pretty (.obj halves)).isScalar
  have hparse := parse_pretty legible_halves
  have hnames := namesFieldsByTexts_halves
  have hok : (ofSchema Options.strict.setup (.obj halves)).toBool = true := by decide +kernel
  cases hd : ofSchema Options.strict.setup (.obj halves) with
  | error fault =>
    rw [hd] at hok
    cases hok
  | ok document =>
    have htext : ofText Options.strict.setup (Json.obj halves).pretty = .ok document.pretty := by
      simp only [ofText, hparse, hd, bind, Except.bind]
      rfl
    exact ⟨hscalar, hparse, hnames, _, htext, hd ▸ ofText_reads_back Options.strict _ _ _ hscalar hparse
      hnames htext⟩

end Document

end AvroJsonSchema
