import AvroJsonSchema.Proofs.Toggles

/-!
# Well-formed documents

At every place of a document where JSON Schema expects a schema stands an object.  Its keys differ,
and each of its entries is a keyword with a value of the kind that belongs to the keyword, the default
of a field, an entry of the header of the document, or a custom property that has been copied; no
other attribute of the Avro schema is among them.  What is required is among the properties.

* **`Json.StandsIn`**: a schema stands in a document, at its root, as a property or elsewhere.
* **`Json.Admits`**: the values that belong to a keyword.
* **`Json.EntryFits`**, **`Json.NodeFits`**: what stands in a schema of a document.
* **`Schema.Tidy`**: docs and names of fields are texts, the names within a record differ, unions are
  not empty and custom properties are not named like keywords.
* **`Outline.formed_write`**: what is written of an outline is well formed.
* **`Document.output_wellFormed`**: so is the document of every tidy schema that is accepted.
-/

namespace AvroJsonSchema

open Table

namespace Json

/-- Where a schema of a document stands. -/
inductive Standing where
  /-- It is the whole document. -/
  | root
  /-- It is a property of an object. -/
  | property
  | other
deriving DecidableEq

/-- Where a schema under a keyword stands. -/
def Standing.under (keyword : Text) : Standing :=
  if keyword = Text.ofString "properties" then .property else .other

/-- A schema stands in a document. -/
inductive StandsIn (document : Json) : Standing → Json → Prop
  | root : StandsIn document .root document
  | under {standing : Standing} {entries : Entries} {keyword : Text} {value i : Json} :
      StandsIn document standing (.obj entries) → (Key.text keyword, value) ∈ entries →
      i ∈ subschemas keyword value → StandsIn document (.under keyword) i

/-- The keywords whose value is a text. -/
def textKeywords : List Text :=
  ["$ref", "title", "description", "format", "contentEncoding", "javaType"]

/-- The values that belong to a keyword, apart from what is said of the schemas in them. -/
inductive Admits : Text → Json → Prop
  | type (t : SchemaType) : Admits "type" (.str t.text)
  | types {s t : SchemaType} : s ≠ t → Admits "type" (.arr [.str s.text, .str t.text])
  | properties (table : Entries) : Admits "properties" (.obj table)
  | required {names : List Text} : names.Nodup → Admits "required" (.arr (names.map .str))
  | items (entries : Entries) : Admits "items" (.obj entries)
  | additional (b : Bool) : Admits "additionalProperties" (.bool b)
  | values (entries : Entries) : Admits "additionalProperties" (.obj entries)
  | enum (symbols : List Text) : Admits "enum" (.arr (symbols.map .str))
  | oneOf {branches : List Json} : branches ≠ [] → Admits "oneOf" (.arr branches)
  | text {name : Text} (t : Text) : name ∈ textKeywords → Admits name (.str t)

/-- The names that no custom property may have: those of keywords, and those of the header. -/
def reservedKeywords : List Text :=
  (["type", "properties", "required", "items", "additionalProperties", "enum", "oneOf", "$schema"]
    : List Text) ++ textKeywords ++ definitionsKeywords

/-- What an entry of a schema may be in a document of an Avro schema. -/
inductive EntryFits (draft : Draft) (schema : Json) : Standing → Key × Json → Prop
  | keyword {standing : Standing} {name : Text} {value : Json} :
      Admits name value → EntryFits draft schema standing (.text name, value)
  | default (value : Json) : EntryFits draft schema .property (.text "default", value)
  | address : EntryFits draft schema .root (.text "$schema", .str draft.schemaUrl)
  | definitions (table : Entries) :
      EntryFits draft schema .root (.text draft.definitionsKeyword, .obj table)
  /-- A custom property of an object of the schema, as it is there. -/
  | custom {standing : Standing} {name : Text} {value : Json} {attributes : Entries} :
      Schema.Below (.obj attributes) schema →
      (.text name, value) ∈ Schema.customProperties attributes → name ∉ reservedKeywords →
      EntryFits draft schema standing (.text name, value)

/-- What is required is among the properties. -/
def RequiredListed (entries : Entries) : Prop :=
  ∀ names, entries.attr? "required" = some (.arr names) →
    ∃ table, entries.attr? "properties" = some (.obj table)
      ∧ ∀ name ∈ names, ∃ t, name = .str t ∧ Key.text t ∈ keys table

/-- What stands in a schema of a document of an Avro schema. -/
structure NodeFits (draft : Draft) (schema : Json) (standing : Standing) (entries : Entries) :
    Prop where
  keys : entries.keys.Nodup
  fits : ∀ e ∈ entries, EntryFits draft schema standing e
  required : RequiredListed entries

/-- A schema and all that stand below it have in them what may stand there. -/
inductive WellFormed (draft : Draft) (schema : Json) : Standing → Json → Prop
  | obj {standing : Standing} {entries : Entries} :
      NodeFits draft schema standing entries →
      (∀ keyword value, (Key.text keyword, value) ∈ entries → ∀ i ∈ subschemas keyword value,
        WellFormed draft schema (.under keyword) i) →
      WellFormed draft schema standing (.obj entries)

variable {draft : Draft} {schema : Json} {standing : Standing}

theorem WellFormed.of_standsIn {document i : Json} (h : WellFormed draft schema .root document)
    (hi : StandsIn document standing i) : WellFormed draft schema standing i := by
  induction hi with
  | root => exact h
  | under _ he hi ih =>
    cases ih with
    | obj _ hbelow => exact hbelow _ _ he _ hi

theorem WellFormed.node {i : Json} (h : WellFormed draft schema standing i) :
    ∃ entries, i = .obj entries ∧ NodeFits draft schema standing entries := by
  cases h with
  | obj hnode _ => exact ⟨_, rfl, hnode⟩

/-! ### Entries that fit, with the schemas below them -/

/-- An entry fits, and so does all that stands below it. -/
def EntryFormed (draft : Draft) (schema : Json) (standing : Standing) (e : Key × Json) : Prop :=
  EntryFits draft schema standing e
    ∧ ∀ keyword, e.1 = .text keyword → ∀ i ∈ subschemas keyword e.2,
        WellFormed draft schema (.under keyword) i

theorem EntryFits.text {e : Key × Json} (h : EntryFits draft schema standing e) :
    ∃ name, e.1 = .text name := by
  cases h <;> exact ⟨_, rfl⟩

theorem respects_entryFormed : Respects (EntryFormed draft schema standing) := by
  intro e e' hv hk h
  obtain ⟨name, hname⟩ := h.1.text
  rw [hname] at hk
  have heq : e = e' := Prod.ext (((Key.sharp_text name e.1).1.1 hk).trans hname.symm) hv
  exact heq ▸ h

theorem EntryFormed.of_admits {name : Text} {value : Json} (h : Admits name value)
    (hs : subschemas name value = []) : EntryFormed draft schema standing (.text name, value) := by
  refine ⟨.keyword h, fun keyword hk i hi => ?_⟩
  cases hk
  rw [hs] at hi
  cases hi

theorem EntryFormed.text {name : Text} (hn : name ∈ textKeywords) (t : Text) :
    EntryFormed draft schema standing (.text name, .str t) :=
  .of_admits (.text t hn) rfl

theorem EntryFormed.type (t : SchemaType) :
    EntryFormed draft schema standing (.text "type", .str t.text) :=
  .of_admits (.type t) rfl

/-- An entry that fits anywhere fits at every place. -/
theorem EntryFormed.anywhere {e : Key × Json} (h : EntryFormed draft schema .other e)
    (standing : Standing) : EntryFormed draft schema standing e := by
  refine ⟨?_, h.2⟩
  cases h.1 with
  | keyword ha => exact .keyword ha
  | custom hb he hn => exact .custom hb he hn

theorem not_mem_linkingKeywords {name : Text} (h : name ∉ reservedKeywords) :
    name ∉ linkingKeywords := by
  intro hl
  have hsub : ∀ name ∈ linkingKeywords, name ∈ reservedKeywords := by decide
  exact h (hsub name hl)

theorem subschemas_of_not_linking {name : Text} (h : name ∉ linkingKeywords) (value : Json) :
    subschemas name value = [] :=
  List.eq_nil_iff_forall_not_mem.2 fun _ hi => h (mem_linkingKeywords_of_subschemas hi)

theorem subschemas_arr {name : Text} (h : name ∉ listKeywords) (items : List Json) :
    subschemas name (.arr items) = [] :=
  if_neg h

theorem EntryFormed.custom {name : Text} {value : Json} {attributes : Entries}
    (hb : Schema.Below (.obj attributes) schema)
    (he : (.text name, value) ∈ Schema.customProperties attributes) (hn : name ∉ reservedKeywords) :
    EntryFormed draft schema standing (.text name, value) := by
  refine ⟨.custom hb he hn, fun keyword hk i hi => ?_⟩
  cases hk
  rw [subschemas_of_not_linking (not_mem_linkingKeywords hn)] at hi
  cases hi

/-! ### Entries of a schema -/

/-- The entries of a schema fit, with all that stands below them. -/
structure Formed (draft : Draft) (schema : Json) (standing : Standing) (entries : Entries) :
    Prop where
  fits : ∀ e ∈ entries, EntryFormed draft schema standing e
  once : ∀ name, Once (Key.text name) entries
  required : RequiredListed entries

namespace Formed

variable {t u : Entries} {name : Text} {value : Json}

/-- Schemas whose entries fit are well formed. -/
theorem wellFormed (h : Formed draft schema standing t) :
    WellFormed draft schema standing (.obj t) := by
  refine .obj ⟨?_, fun e he => (h.fits e he).1, h.required⟩ fun keyword value he i hi =>
    (h.fits _ he).2 keyword rfl i hi
  refine nodup_keys_of_once fun e he => ?_
  obtain ⟨name, hname⟩ := (h.fits e he).1.text
  exact hname ▸ h.once name

/-- A schema that requires nothing. -/
theorem of_open (hfits : ∀ e ∈ t, EntryFormed draft schema standing e)
    (honce : ∀ name, Once (Key.text name) t) (hopen : t.Open) : Formed draft schema standing t := by
  refine ⟨hfits, honce, fun names hr => ?_⟩
  have habsent := hopen.not_mem_keys (by decide : Text.ofString "required" ∈ toggledKeywords) (by decide)
  rw [Entries.attr?, (get?_eq_none_iff (Key.sharp_text _)).2 habsent] at hr
  cases hr

theorem anywhere (h : Formed draft schema .other t) (standing : Standing) :
    Formed draft schema standing t :=
  ⟨fun e he => (h.fits e he).anywhere standing, h.once, h.required⟩

/-- What is put in beside the properties and the required names changes neither. -/
theorem put (h : Formed draft schema standing t) (hr : name ≠ Text.ofString "required")
    (hp : name ≠ Text.ofString "properties")
    (hv : EntryFormed draft schema standing (.text name, value)) :
    Formed draft schema standing (t.put name value) := by
  refine ⟨forall_mem_set respects_entryFormed h.fits hv,
    fun other => (h.once other).set (Key.sharp_text other) _ _, ?_⟩
  intro names hnames
  rw [Entries.attr?_put_of_ne hr] at hnames
  rw [Entries.attr?_put_of_ne hp]
  exact h.required names hnames

theorem erase (h : Formed draft schema standing t) (hr : name ≠ Text.ofString "required")
    (hp : name ≠ Text.ofString "properties") :
    Formed draft schema standing (t.erase (.text name)) := by
  refine ⟨forall_mem_erase h.fits, fun other => (h.once other).erase _, ?_⟩
  have hother : ∀ other : Text, name ≠ other →
      Entries.attr? other (t.erase (.text name)) = t.attr? other := fun other hne =>
    get?_erase_of_ne (Key.sharp_text other) (fun h => hne (Key.text.inj h)) t
  intro names hnames
  rw [hother _ hr] at hnames
  rw [hother _ hp]
  exact h.required names hnames

/-- Entries under other names than those that the keywords have are put in after the others. -/
theorem merge_custom (h : Formed draft schema standing t)
    (hu : ∀ e ∈ u, EntryFormed draft schema standing e ∧ ∃ name ∉ reservedKeywords, e.1 = .text name) :
    Formed draft schema standing (t.merge u) := by
  induction u generalizing t with
  | nil => exact h
  | cons e u ih =>
    obtain ⟨⟨he, name, hn, hname⟩, hrest⟩ := List.forall_mem_cons.1 hu
    obtain ⟨key, value⟩ := e
    cases hname
    have hne : ∀ other ∈ reservedKeywords, name ≠ other := fun other ho hc => hn (hc ▸ ho)
    exact ih (h.put (hne _ (by decide)) (hne _ (by decide)) he) hrest

end Formed

end Json

/-! ### Tidy schemas -/

namespace Schema

open Json

/-- The name of a field. -/
def fieldName? : Json → Option Json
  | .obj attributes => Json.Entries.attr? "name" attributes
  | _ => none

/-- The doc of an object is a text if there is one. -/
def DocIsText (attributes : Json.Entries) : Prop :=
  ∀ doc, attributes.attr? "doc" = some doc → ∃ t, doc = .str t

/-- Docs are texts, the names of the fields of a record are texts that differ, unions are not empty,
and custom properties are not named like keywords. -/
structure Tidy (schema : Json) : Prop where
  docs : ∀ attributes : Json.Entries, Below (.obj attributes) schema → DocIsText attributes
  fields : ∀ (attributes : Json.Entries) (list : List Json), Below (.obj attributes) schema → IsRecord attributes →
    attributes.attr? "fields" = some (.arr list) →
    (∃ names : List Text, names.Nodup ∧ list.map fieldName? = names.map (some ∘ .str))
      ∧ ∀ field : Json.Entries, .obj field ∈ list → DocIsText field
  unions : ¬Below (.arr []) schema
  custom : ∀ attributes : Json.Entries, Below (.obj attributes) schema → ∀ e ∈ customProperties attributes,
    ∃ name ∉ reservedKeywords, e.1 = .text name

/-- A tidy schema has no custom property that a switch decides about. -/
theorem Tidy.toggleFree {schema : Json} (tidy : Tidy schema) (attributes : Json.Entries)
    (hb : Below (.obj attributes) schema) : ToggleFree attributes := by
  rintro e he ⟨name, hn, hname⟩
  obtain ⟨other, ho, hother⟩ := tidy.custom attributes hb e he
  have hreserved : ∀ name ∈ toggledKeywords, name ∈ reservedKeywords := by decide
  rw [hother] at hname
  exact ho (Key.text.inj hname ▸ hreserved name hn)

end Schema

/-! ### Keywords of a node -/

open Json Schema

namespace Keywords

variable {draft : Draft} {schema : Json} {standing : Standing} {o : Options}
  {attributes t : Json.Entries}

theorem text_of_details {l : LogicalType} {hints : Bool} {e : Key × Json} (h : e ∈ l.details hints) :
    ∃ name ∈ textKeywords, ∃ text, e = (.text name, .str text) := by
  unfold LogicalType.details at h
  rcases List.mem_append.1 h with h | h
  · split at h
    · rw [List.mem_singleton.1 h]
      exact ⟨_, by decide, _, rfl⟩
    · cases h
  · split at h
    · rw [List.mem_singleton.1 h]
      exact ⟨_, by decide, _, rfl⟩
    · cases h

theorem formed_ofLogicalType : Formed draft schema standing (ofLogicalType o attributes) := by
  refine .of_open (fun e he => ?_) (fun name => Outline.once_ofLogicalType name o attributes)
    (open_ofLogicalType o attributes)
  unfold ofLogicalType at he
  split at he
  · rcases List.mem_cons.1 he with rfl | he
    · exact .type _
    · obtain ⟨name, hn, text, rfl⟩ := text_of_details he
      exact .text hn text
  · cases he

theorem formed_putType (h : Formed draft schema standing t) (type : SchemaType) :
    Formed draft schema standing (t.putIfAbsent "type" type.text) := by
  unfold Json.Entries.putIfAbsent Table.setIfAbsent
  split
  · exact h
  · exact h.put (by decide) (by decide) (.type type)

theorem formed_withType (type : SchemaType) :
    Formed draft schema standing (withType o attributes type) :=
  formed_putType formed_ofLogicalType type

theorem formed_ofScalar (scalar : Scalar) :
    Formed draft schema standing (ofScalar o attributes scalar) := by
  have hlogical : Formed draft schema standing (ofLogicalType o attributes) := formed_ofLogicalType
  have hbinary : ∀ claimed,
      Formed draft schema standing (Scalar.apply.binary claimed (ofLogicalType o attributes)) := by
    intro claimed
    unfold Scalar.apply.binary
    split
    · exact hlogical
    · exact (hlogical.put (by decide) (by decide) (.type .string)).put (by decide) (by decide)
        (.text (by decide) _)
  unfold ofScalar
  cases scalar with
  | fixed => exact hbinary _
  | primitive p =>
    show Formed draft schema standing (if _ then _ else _)
    split
    · exact hbinary _
    · exact formed_putType hlogical _

theorem formed_describe (h : Formed draft schema standing t) (hdoc : DocIsText attributes) :
    Formed draft schema standing (describe attributes t) := by
  unfold describe
  split
  · rename_i doc hd
    obtain ⟨text, rfl⟩ := hdoc doc hd
    exact h.put (by decide) (by decide) (.text (by decide) text)
  · exact h

theorem formed_annotate (tidy : Tidy schema) (hb : Below (.obj attributes) schema)
    (h : Formed draft schema standing t) : Formed draft schema standing (annotate attributes t) := by
  refine (formed_describe h (tidy.docs attributes hb)).merge_custom fun e he => ?_
  obtain ⟨name, hn, hname⟩ := tidy.custom attributes hb e he
  obtain ⟨key, value⟩ := e
  cases hname
  exact ⟨.custom hb he hn, name, hn, rfl⟩

/-- Nothing is added for a bare name. -/
theorem formed_annotate_nil (h : Formed draft schema standing t) :
    Formed draft schema standing (annotate [] t) :=
  h

/-- The doc and the default of a field make a property of a schema. -/
theorem formed_decorate {field : Json.Entries} (hdoc : DocIsText field)
    (h : Formed draft schema .other t) : Formed draft schema .property (decorate field t) := by
  have hdescribed := formed_describe (h.anywhere .property) hdoc
  unfold decorate
  dsimp only
  split
  · rename_i value _
    refine (hdescribed.erase (by decide) (by decide)).put (by decide) (by decide) ?_
    refine ⟨.default value, fun keyword hk i hi => ?_⟩
    cases hk
    rw [subschemas_of_not_linking (by decide)] at hi
    cases hi
  · exact hdescribed

theorem formed_nullableScalar (member : Json) {p : Primitive} (hp : p ≠ .null) :
    Formed draft schema standing (nullableScalar o member p) := by
  have hpair : ∀ type : SchemaType, type ≠ .null →
      EntryFormed draft schema standing (.text "type", nullableScalar.typePair type) := by
    intro type hne
    exact .of_admits (.types (Ne.symm hne)) (subschemas_arr (by decide) _)
  refine .of_open (fun e he => ?_) (fun name => Outline.once_nullableScalar name o member p)
    (open_nullableScalar o member p)
  unfold nullableScalar at he
  dsimp only at he
  split at he
  · rename_i l _
    rcases List.mem_cons.1 he with rfl | he
    · exact hpair l.schemaType (by cases l <;> decide)
    · obtain ⟨name, hn, text, rfl⟩ := text_of_details he
      exact .text hn text
  · rw [List.mem_singleton.1 he]
    refine hpair p.schemaType ?_
    cases p <;> first | exact absurd rfl hp | decide

/-- A choice between well-formed schemas, of which there is one at least. -/
theorem formed_oneOf {branches : List Json} (hne : branches ≠ [])
    (h : ∀ j ∈ branches, WellFormed draft schema .other j) :
    Formed draft schema standing (oneOf branches) := by
  refine .of_open (fun e he => ?_) (fun name => once_singleton _ _) fun e he => ?_
  · rw [List.mem_singleton.1 he]
    refine ⟨.keyword (.oneOf hne), fun keyword hk i hi => ?_⟩
    cases hk
    exact h i hi
  · rw [List.mem_singleton.1 he]
    exact .inr (show ¬(Key.text "oneOf").IsToggled by decide)

/-- The frame of a record around well-formed properties, if what is required is among them. -/
theorem formed_recordFrame {name : Text} {properties : Json.Entries} {required : List Text}
    (hproperties : ∀ e ∈ properties, WellFormed draft schema .property e.2)
    (hnodup : required.Nodup) (hlisted : ∀ t ∈ required, Key.text t ∈ keys properties) :
    Formed draft schema standing
      (recordFrame o name attributes properties (required.map .str)) := by
  have htable : EntryFormed draft schema standing (.text "properties", .obj properties) := by
    refine ⟨.keyword (.properties properties), fun keyword hk i hi => ?_⟩
    cases hk
    obtain ⟨e, he, rfl⟩ := List.mem_map.1 (show i ∈ properties.map Prod.snd from hi)
    exact hproperties e he
  generalize hbase : ((withType o attributes .object).put "title" (.str (Name.localOf name))).put
    "properties" (.obj properties) = base
  have hformed : Formed draft schema standing base := by
    have htitle : Formed draft schema standing
        ((withType o attributes .object).put "title" (.str (Name.localOf name))) :=
      (formed_withType .object).put (by decide) (by decide) (.text (by decide) _)
    have hopen : Entries.Open (((withType o attributes .object).put "title"
        (.str (Name.localOf name))).put "properties" (.obj properties)) :=
      ((open_withType o attributes .object).set (.inr (by decide)) _).set (.inr (by decide)) _
    rw [← hbase]
    exact .of_open (forall_mem_set respects_entryFormed htitle.fits htable)
      (fun other => (htitle.once other).set (Key.sharp_text other) _ _) hopen
  have hrequired : Formed draft schema standing
      (base.put "required" (.arr (required.map .str))) := by
    refine ⟨forall_mem_set respects_entryFormed hformed.fits
      (.of_admits (.required hnodup) (subschemas_arr (by decide) _)),
      fun other => (hformed.once other).set (Key.sharp_text other) _ _, fun names hnames => ?_⟩
    rw [Entries.attr?_put_self] at hnames
    cases hnames
    refine ⟨properties, ?_, fun name hname => ?_⟩
    · rw [Entries.attr?_put_of_ne (by decide), ← hbase, Entries.attr?_put_self]
    · obtain ⟨t, ht, rfl⟩ := List.mem_map.1 hname
      exact ⟨t, rfl, hlisted t ht⟩
  have hclose : ∀ t, Formed draft schema standing t →
      Formed draft schema standing (t.put "additionalProperties" (.bool false)) :=
    fun t h => h.put (by decide) (by decide) (.of_admits (.additional false) rfl)
  unfold recordFrame
  dsimp only
  rw [hbase]
  split <;> split
  · exact hclose base hformed
  · exact hclose _ hrequired
  · exact hformed
  · exact hrequired

end Keywords

/-! ### Outlines -/

namespace Outline

open Keywords Conversion

variable {draft : Draft} {schema : Json} {standing : Standing}

theorem exists_texts {items : List Json} (h : ∀ j ∈ items, ∃ t, j = .str t) :
    ∃ texts : List Text, items = texts.map .str := by
  induction items with
  | nil => exact ⟨[], rfl⟩
  | cons j items ih =>
    obtain ⟨⟨t, rfl⟩, hrest⟩ := List.forall_mem_cons.1 h
    obtain ⟨texts, rfl⟩ := ih hrest
    exact ⟨t :: texts, rfl⟩

theorem Flat.formed_write (tidy : Tidy schema) (o : Options) {flat : Flat}
    (h : flat.MadeFrom schema) : Formed draft schema standing (flat.write o) := by
  cases h with
  | name p => exact formed_annotate_nil (formed_ofScalar _)
  | scalar s hb => exact formed_annotate tidy hb (formed_ofScalar s)
  | enum hb htexts =>
    obtain ⟨symbols, rfl⟩ := exists_texts htexts
    refine formed_annotate tidy hb ((formed_withType .string).put (by decide) (by decide) ?_)
    exact .of_admits (.enum symbols) (subschemas_arr (by decide) _)
  | reference qualified =>
    refine .of_open (fun e he => ?_) (fun name => once_singleton _ _)
      (Flat.open_write tidy.toggleFree (.reference qualified) o)
    rw [List.mem_singleton.1 he]
    exact .text (by decide) _

/-! ### The fields of a record -/

theorem mem_keys_set_text {t : Text} {key : Key} {properties : Json.Entries} (value : Json)
    (h : Key.text t ∈ keys properties ∨ key = .text t) :
    Key.text t ∈ keys (Table.set key value properties) := by
  have hsharp := Key.sharp_text t
  rw [← has_iff_mem_keys hsharp] at h ⊢
  rcases h with h | rfl
  · exact Entries.has_set_of_has h key value
  · rw [has, get?_set_self hsharp]
    rfl

/-- Every field has a property. -/
theorem mem_keys_writeFields (o : Options) {fields : List (Field × Outline)} {t : Text}
    {properties : Json.Entries}
    (h : Key.text t ∈ keys properties ∨ ∃ field ∈ fields, field.1.key = .text t) :
    Key.text t ∈ keys (writeFields o fields properties) := by
  induction fields generalizing properties with
  | nil =>
    rw [writeFields]
    exact h.resolve_right (by simp)
  | cons field fields ih =>
    obtain ⟨field, type⟩ := field
    rw [writeFields]
    refine ih ?_
    rcases h with h | ⟨field', hf, hk⟩
    · exact .inl (mem_keys_set_text _ (.inl h))
    · rcases List.mem_cons.1 hf with rfl | hf
      · exact .inl (mem_keys_set_text _ (.inr hk))
      · exact .inr ⟨field', hf, hk⟩

/-- The required names are some of the names of the fields, in their order. -/
theorem requiredNames_sublist {fields : List (Field × Outline)} {names : List Text}
    (h : fields.map (fun field => field.1.name) = names.map .str) :
    ∃ required : List Text, required.Sublist names ∧ requiredNames fields = required.map .str := by
  induction fields generalizing names with
  | nil => exact ⟨[], List.nil_sublist _, rfl⟩
  | cons field fields ih =>
    obtain ⟨field, type⟩ := field
    cases names with
    | nil => cases h
    | cons t names =>
      obtain ⟨hname, hrest⟩ := List.cons.inj h
      obtain ⟨required, hsub, hreq⟩ := ih hrest
      rw [requiredNames]
      split
      · exact ⟨required, hsub.cons t, hreq⟩
      · refine ⟨t :: required, hsub.cons_cons t, ?_⟩
        rw [hreq, List.map_cons]
        exact congrArg (· :: _) hname

/-- The names of the fields of a tidy record are texts that differ. -/
theorem names_of_tidy (tidy : Tidy schema) {attributes : Json.Entries}
    {fields : List (Field × Outline)} (hb : Below (.obj attributes) schema)
    (hrecord : IsRecord attributes)
    (hlist : attributes.attr? "fields" = some (.arr (fields.map fun field => .obj field.1.attributes)))
    (hreads : ∀ field ∈ fields, field.1.Reads) :
    (∃ names : List Text, names.Nodup ∧ fields.map (fun field => field.1.name) = names.map .str)
      ∧ ∀ field ∈ fields, DocIsText field.1.attributes := by
  obtain ⟨⟨names, hnodup, hnames⟩, hdocs⟩ := tidy.fields attributes _ hb hrecord hlist
  refine ⟨⟨names, hnodup, ?_⟩, fun field hf => hdocs _ (List.mem_map.2 ⟨field, hf, rfl⟩)⟩
  have hread : fields.map (fun field => fieldName? (.obj field.1.attributes)) =
      fields.map (fun field => some field.1.name) :=
    List.map_congr_left fun field hf => (hreads field hf).name
  rw [List.map_map, Function.comp_def, hread] at hnames
  refine (List.map_inj_right (f := some) fun _ _ h => Option.some.inj h).1 ?_
  rw [List.map_map, List.map_map]
  exact hnames

theorem wellFormed_writeFields (o : Options) {fields : List (Field × Outline)}
    {properties : Json.Entries}
    (ih : ∀ field ∈ fields, Formed draft schema .other (field.2.write o))
    (hdocs : ∀ field ∈ fields, DocIsText field.1.attributes)
    (h : ∀ e ∈ properties, WellFormed draft schema .property e.2) :
    ∀ e ∈ writeFields o fields properties, WellFormed draft schema .property e.2 := by
  induction fields generalizing properties with
  | nil => rwa [writeFields]
  | cons field fields hrest =>
    obtain ⟨hfield, hfields⟩ := List.forall_mem_cons.1 ih
    obtain ⟨hdoc, hdocs⟩ := List.forall_mem_cons.1 hdocs
    rw [writeFields]
    exact hrest hfields hdocs (forall_mem_set (fun _ _ hv _ he => hv ▸ he) h
      (formed_decorate hdoc hfield).wellFormed)

theorem wellFormed_writeBranches {o : Options} {branches : List Outline}
    (ih : ∀ branch ∈ branches, Formed draft schema .other (branch.write o)) :
    ∀ j ∈ writeBranches o branches, WellFormed draft schema .other j := by
  induction branches with
  | nil => simp [writeBranches]
  | cons branch branches hrest =>
    obtain ⟨hbranch, hbranches⟩ := List.forall_mem_cons.1 ih
    rw [writeBranches]
    exact List.forall_mem_cons.2 ⟨hbranch.wellFormed, hrest hbranches⟩

/-- **What is written of an outline of a tidy schema is well formed.** -/
theorem formed_write (tidy : Tidy schema) (o : Options) {outline : Outline}
    (h : outline.MadeFrom schema) : Formed draft schema .other (outline.write o) := by
  induction h with
  | flat hf =>
    rw [write]
    exact Flat.formed_write tidy o hf
  | annotated hb ht =>
    rw [write]
    have htarget : Formed draft schema .other _ := Flat.formed_write tidy o ht
    refine formed_annotate tidy hb (.of_open ?_ ?_ ?_)
    · exact forall_mem_mergeAbsent respects_entryFormed formed_ofLogicalType.fits htarget.fits
    · exact fun name => (once_ofLogicalType name o _).mergeAbsent (Key.sharp_text name) _
    · exact (open_ofLogicalType o _).mergeAbsent (Flat.open_write tidy.toggleFree ht o)
  | nullable member hp =>
    rw [write]
    exact formed_nullableScalar member hp
  | array hb _ ih =>
    rw [write]
    refine formed_annotate tidy hb ((formed_withType .array).put (by decide) (by decide) ?_)
    refine ⟨.keyword (.items _), fun keyword hk i hi => ?_⟩
    cases hk
    rw [List.mem_singleton.1 (show i ∈ [_] from hi)]
    exact ih.wellFormed
  | map hb _ ih =>
    rw [write]
    refine formed_annotate tidy hb ((formed_withType .object).put (by decide) (by decide) ?_)
    refine ⟨.keyword (.values _), fun keyword hk i hi => ?_⟩
    cases hk
    rw [List.mem_singleton.1 (show i ∈ [_] from hi)]
    exact ih.wellFormed
  | record qualified hb hrecord hlist hreads _ ih =>
    rw [write]
    obtain ⟨⟨names, hnodup, hnames⟩, hdocs⟩ := names_of_tidy tidy hb hrecord hlist hreads
    obtain ⟨required, hsub, hrequired⟩ := requiredNames_sublist hnames
    rw [hrequired]
    refine formed_annotate tidy hb (formed_recordFrame
      (wellFormed_writeFields o ih hdocs (by simp)) (hnodup.sublist hsub) fun t ht => ?_)
    refine mem_keys_writeFields o (.inr ?_)
    have hname : Json.str t ∈ names.map Json.str := List.mem_map.2 ⟨t, hsub.subset ht, rfl⟩
    rw [← hnames] at hname
    obtain ⟨field, hf, hft⟩ := List.mem_map.1 hname
    have hkey := (hreads field hf).key
    rw [hft] at hkey
    exact ⟨field, hf, (Option.some.inj hkey).symm⟩
  | choice hne _ ih =>
    rw [write]
    refine formed_oneOf (fun hnil => ?_) (wellFormed_writeBranches ih)
    rename_i branches _
    cases branches with
    | nil => exact tidy.unions (hne rfl)
    | cons branch branches =>
      rw [writeBranches] at hnil
      cases hnil

end Outline

/-! ### Documents -/

namespace Document

open Outline

variable {schema : Json} {o : Options}

/-- The definitions of a context are well formed. -/
def DefinitionsFormed (draft : Draft) (schema : Json) (c : Context) : Prop :=
  ∀ e ∈ c.definitions, WellFormed draft schema .other (.obj e.2)

theorem formed_definitionsTable {draft : Draft} {c : Context} (h : DefinitionsFormed draft schema c) :
    EntryFormed draft schema .root (.text draft.definitionsKeyword, definitionsTable c) := by
  refine ⟨.definitions _, fun keyword hk i hi => ?_⟩
  cases hk
  have htable : subschemas draft.definitionsKeyword (definitionsTable c) =
      c.definitions.map fun e => .obj e.2 := by
    rw [definitionsTable, subschemas, if_pos (by cases draft <;> decide), List.map_map]
    rfl
  have hunder : Standing.under draft.definitionsKeyword = .other := by
    cases draft <;> decide
  rw [htable] at hi
  obtain ⟨e, he, rfl⟩ := List.mem_map.1 hi
  exact hunder ▸ h e he

/-- The keys that a header may have. -/
theorem keys_header (draft : Draft) (c : Context) :
    (keys (header draft c)).Sublist [Key.text "$schema", Key.text draft.definitionsKeyword] := by
  unfold header
  split
  · exact (List.nil_sublist _).cons_cons _
  · exact List.Sublist.refl _

theorem formed_header {draft : Draft} {c : Context} (h : DefinitionsFormed draft schema c) :
    Formed draft schema .root (header draft c) := by
  have hnodup : [Key.text "$schema", Key.text draft.definitionsKeyword].Nodup := by
    cases draft <;> decide
  refine .of_open (fun e he => ?_) (fun name => once_of_nodup (hnodup.sublist (keys_header draft c)))
    fun e he => .inr (header_free draft c e he)
  rcases List.mem_cons.1 he with rfl | he
  · refine ⟨.address, fun keyword hk i hi => ?_⟩
    cases hk
    cases hi
  · split at he
    · cases he
    · rw [List.mem_singleton.1 he]
      exact formed_definitionsTable h

/-- A converted schema under a header. -/
theorem formed_merge {draft : Draft} {c : Context} {root : Json.Entries}
    (hc : DefinitionsFormed draft schema c) (h : Formed draft schema .root root) :
    Formed draft schema .root ((header draft c).merge root) := by
  have hheader := formed_header hc
  have hattr : ∀ name ∈ ([Text.ofString "required", Text.ofString "properties"]),
      Json.Entries.attr? name ((header draft c).merge root) = root.attr? name := by
    intro name hn
    have hother : ∀ name ∈ [Text.ofString "required", Text.ofString "properties"],
        name ≠ Text.ofString "$schema" ∧ name ≠ draft.definitionsKeyword := by
      cases draft <;> decide
    have habsent : Key.text name ∉ keys (header draft c) := by
      intro hk
      have hmem := (keys_header draft c).subset hk
      simp only [List.mem_cons, List.not_mem_nil, or_false, Key.text.injEq] at hmem
      exact hmem.elim (hother name hn).1 (hother name hn).2
    have hsharp := Key.sharp_text name
    rw [Json.Entries.attr?, (h.once name).get?_merge hsharp, (get?_eq_none_iff hsharp).2 habsent,
      Option.or_none]
    rfl
  refine ⟨forall_mem_merge respects_entryFormed hheader.fits h.fits,
    fun name => (hheader.once name).merge (Key.sharp_text name) _, fun names hnames => ?_⟩
  rw [hattr _ (by simp)] at hnames
  rw [hattr _ (by simp)]
  exact h.required names hnames

/-- **Documents are well formed and hold no attribute of the Avro schema but its custom properties.**
Wherever a schema stands in the document of a tidy schema, there is an object whose keys differ and
whose entries fit, and what it requires is among its properties. -/
theorem output_wellFormed (options : Options) (schema document : Json) (tidy : Tidy schema)
    (h : ofSchema options schema = .ok document) (standing : Standing) (i : Json)
    (hi : StandsIn document standing i) :
    ∃ entries, i = .obj entries ∧ NodeFits options.draft schema standing entries := by
  rw [ofSchema_eq_written] at h
  generalize hledger : (Outline.ofSchema options.flattenNullableUnions schema).2 = ledger at h
  cases hresult : (Outline.ofSchema options.flattenNullableUnions schema).1 with
  | error fault =>
    rw [hresult] at h
    cases h
  | ok outline =>
    rw [hresult] at h
    cases h
    obtain ⟨hroot, hfinished⟩ := madeFrom_ofSchema hresult
    rw [hledger] at hfinished
    have hdefinitions : DefinitionsFormed options.draft schema (ledger.written options []) := by
      refine forall_mem_merge (fun _ _ hv _ he => hv ▸ he) (by simp) fun e he => ?_
      obtain ⟨e', he', rfl⟩ := List.mem_map.1 he
      exact (formed_write tidy options (hfinished e' he')).wellFormed
    have hformed := formed_merge hdefinitions ((formed_write tidy options hroot).anywhere .root)
    exact (WellFormed.of_standsIn hformed.wellFormed hi).node

theorem tidy_visit : Tidy visit where
  docs attributes hb doc hd := by
    rcases below_visit hb with heq | heq | heq | heq <;> cases heq <;> cases hd
  fields attributes list hb hrecord hl := by
    rcases below_visit hb with heq | heq | heq | heq <;> cases heq
    · cases hl
      refine ⟨⟨[Text.ofString "at"], by decide, rfl⟩, fun field hf doc hd => ?_⟩
      cases List.mem_singleton.1 hf
      cases hd
    · cases hl
  unions hb := by
    rcases below_visit hb with heq | heq | heq | heq <;> cases heq
  custom attributes hb e he := by
    rcases below_visit hb with heq | heq | heq | heq <;> cases heq
    · cases he
    · rw [List.mem_singleton.1 he]
      exact ⟨Text.ofString "unit", by decide, rfl⟩

theorem output_wellFormed_visit :
    ∃ document, ofSchema Options.pojoOptimized visit = .ok document
      ∧ ∀ standing i, StandsIn document standing i →
        ∃ entries, i = .obj entries ∧ NodeFits .draft07 visit standing entries := by
  have hok : (ofSchema Options.pojoOptimized visit).toBool = true := by decide +kernel
  cases hd : ofSchema Options.pojoOptimized visit with
  | error fault =>
    rw [hd] at hok
    cases hok
  | ok document =>
    exact ⟨document, rfl, output_wellFormed Options.pojoOptimized visit document tidy_visit hd⟩

end Document

end AvroJsonSchema
