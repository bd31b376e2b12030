import AvroJsonSchema.Proofs.Runs

/-!
# Schema positions and references

The schemas of a document stand in its root, in its definitions table and, to any depth, under the
keywords that hold schemas.  References are what these schemas say under one keyword; whatever stands
under other keywords, such as a default or a list of symbols, refers to nothing.

* **`Json.SchemaAt`**: a schema stands somewhere in a document.
* **`Json.RefersInto`**: every reference in a document leads to one of some names.
* **`Schema.Unambiguous`**: no custom property is named like a keyword that a document is read by.
* **`Conversion.keywordsReferInto_recordKeywords`** and its siblings: the keywords of a node refer to
  what the nodes below it refer to.
-/

namespace AvroJsonSchema

open Table

namespace Json

/-- The keywords of a definitions table. -/
def definitionsKeywords : List Text :=
  [Text.ofString "definitions", Text.ofString "$defs"]

/-- The keywords whose value is an object of schemas. -/
def tableKeywords : List Text :=
  Text.ofString "properties" :: definitionsKeywords

/-- The keywords whose value is a schema. -/
def schemaKeywords : List Text :=
  [Text.ofString "items", Text.ofString "additionalProperties"]

/-- The keywords whose value is a list of schemas. -/
def listKeywords : List Text :=
  [Text.ofString "oneOf"]

/-- The schemas directly below a keyword. -/
def subschemas (keyword : Text) : Json → List Json
  | .obj entries =>
    if keyword ∈ tableKeywords then entries.map Prod.snd
    else if keyword ∈ schemaKeywords then [.obj entries]
    else []
  | .arr items => if keyword ∈ listKeywords then items else []
  | _ => []

/-- A schema stands somewhere in a document, or is all of it. -/
inductive SchemaAt : Json → Json → Prop
  | root (schema : Json) : SchemaAt schema schema
  | under {schema i value : Json} {keyword : Text} {entries : Entries} :
      (Key.text keyword, value) ∈ entries → i ∈ subschemas keyword value → SchemaAt schema i →
      SchemaAt schema (.obj entries)

/-- Every reference in a document is one of the draft to one of some names. -/
def RefersInto (draft : Draft) (names : List Text) (document : Json) : Prop :=
  ∀ (entries : Entries) (r : Json), SchemaAt (.obj entries) document →
    (Key.text "$ref", r) ∈ entries → ∃ q ∈ names, r = .str (draft.referenceRoot ++ q)

/-- The keywords that refer or lead to schemas. -/
def linkingKeywords : List Text :=
  Text.ofString "$ref" :: (tableKeywords ++ schemaKeywords ++ listKeywords)

/-- Whether a key is a keyword that refers or leads to schemas. -/
def Key.isLinking : Key → Bool
  | .text t => linkingKeywords.contains t
  | _ => false

/-- An entry of a schema is no reference but one of the draft to one of some names, and so are those
in the schemas below it. -/
def EntryRefersInto (draft : Draft) (names : List Text) (e : Key × Json) : Prop :=
  (e.1 = .text "$ref" → ∃ q ∈ names, e.2 = .str (draft.referenceRoot ++ q))
    ∧ ∀ keyword, e.1 = .text keyword → ∀ i ∈ subschemas keyword e.2, RefersInto draft names i

variable {draft : Draft} {names : List Text}

/-- A schema refers where its entries refer. -/
theorem refersInto_obj {entries : Entries}
    (h : ∀ e ∈ entries, EntryRefersInto draft names e) : RefersInto draft names (.obj entries) := by
  intro es r hat hr
  cases hat with
  | root => exact (h _ hr).1 rfl
  | under he hi hat => exact (h _ he).2 _ rfl _ hi es r hat hr

theorem mem_linkingKeywords_of_subschemas {keyword : Text} {value i : Json}
    (h : i ∈ subschemas keyword value) : keyword ∈ linkingKeywords := by
  unfold subschemas at h
  simp only [linkingKeywords, List.mem_cons, List.mem_append]
  split at h
  · split at h
    · rename_i hk
      exact .inr (.inl (.inl hk))
    · split at h
      · rename_i hk
        exact .inr (.inl (.inr hk))
      · cases h
  · split at h
    · rename_i hk
      exact .inr (.inr hk)
    · cases h
  · cases h

/-- An entry under another keyword refers to nothing. -/
theorem entryRefersInto_of_other {e : Key × Json} (h : e.1.isLinking = false) :
    EntryRefersInto draft names e := by
  refine ⟨fun hk => ?_, fun keyword hk i hi => ?_⟩
  · rw [hk] at h
    exact absurd h (by decide)
  · rw [hk] at h
    simp [Key.isLinking, mem_linkingKeywords_of_subschemas hi] at h

/-- An entry whose key is taken for the one of another refers where that one does. -/
theorem respects_entryRefersInto : Respects (EntryRefersInto draft names) := by
  intro e e' hv hk h
  have htext : ∀ t, e.1 = .text t → e'.1 = .text t := by
    intro t ht
    rw [ht] at hk
    exact (Key.sharp_text t _).2.1 hk
  rw [EntryRefersInto, hv]
  exact ⟨fun ht => h.1 (htext _ ht), fun t ht => h.2 t (htext t ht)⟩

/-- Schemas in a table refer where each of them refers. -/
theorem entryRefersInto_table {name : Text} {table : Entries} (hn : name ∈ tableKeywords)
    (ht : ∀ e ∈ table, RefersInto draft names e.2) :
    EntryRefersInto draft names (.text name, .obj table) := by
  have href : name ≠ Text.ofString "$ref" := by
    rintro rfl
    exact absurd hn (by decide)
  refine ⟨fun hk => absurd (Key.text.inj hk) href, fun keyword hk i hmem => ?_⟩
  cases hk
  simp only [subschemas, hn, if_true, List.mem_map] at hmem
  obtain ⟨e, he, rfl⟩ := hmem
  exact ht e he

/-- The keywords of a converted node refer to some names, and none of them is a definitions table. -/
def KeywordsReferInto (draft : Draft) (names : List Text) (keywords : Entries) : Prop :=
  ∀ e ∈ keywords, EntryRefersInto draft names e ∧ ∀ t ∈ definitionsKeywords, e.1 ≠ .text t

theorem respects_keywordRefersInto : Respects fun e => EntryRefersInto draft names e
    ∧ ∀ t ∈ definitionsKeywords, e.1 ≠ Key.text t := by
  intro e e' hv hk h
  refine ⟨respects_entryRefersInto e e' hv hk h.1, fun t ht he => h.2 t ht ?_⟩
  rw [he] at hk
  exact (Key.sharp_text t _).2.1 hk

namespace KeywordsReferInto

variable {keywords : Entries}

theorem obj (h : KeywordsReferInto draft names keywords) : RefersInto draft names (.obj keywords) :=
  refersInto_obj fun e he => (h e he).1

theorem of_others (h : ∀ e ∈ keywords, e.1.isLinking = false) :
    KeywordsReferInto draft names keywords := by
  intro e he
  refine ⟨entryRefersInto_of_other (h e he), fun t ht hk => ?_⟩
  have hlinking : t ∈ linkingKeywords := by
    simp only [linkingKeywords, tableKeywords, List.mem_cons, List.mem_append]
    exact .inr (.inl (.inl (.inr ht)))
  have hother := h e he
  rw [hk] at hother
  simp [Key.isLinking, hlinking] at hother

theorem put {name : Text} {value : Json} (h : KeywordsReferInto draft names keywords)
    (hn : name ∉ definitionsKeywords) (hv : EntryRefersInto draft names (.text name, value)) :
    KeywordsReferInto draft names (keywords.put name value) :=
  forall_mem_set respects_keywordRefersInto h ⟨hv, fun _ ht hk => hn (Key.text.inj hk ▸ ht)⟩

theorem put_other {name : Text} (h : KeywordsReferInto draft names keywords)
    (hn : name ∉ linkingKeywords) (value : Json) :
    KeywordsReferInto draft names (keywords.put name value) := by
  have hentry : KeywordsReferInto draft names [(.text name, value)] :=
    of_others fun e he => by simpa [List.mem_singleton.1 he, Key.isLinking] using hn
  exact forall_mem_set respects_keywordRefersInto h (hentry _ List.mem_cons_self)

theorem putIfAbsent_other {name : Text} (h : KeywordsReferInto draft names keywords)
    (hn : name ∉ linkingKeywords) (value : Json) :
    KeywordsReferInto draft names (keywords.putIfAbsent name value) := by
  have hentry : KeywordsReferInto draft names [(.text name, value)] :=
    of_others fun e he => by simpa [List.mem_singleton.1 he, Key.isLinking] using hn
  exact forall_mem_setIfAbsent respects_keywordRefersInto h (hentry _ List.mem_cons_self)

/-- A schema under the keyword of one schema refers where it refers. -/
theorem put_schema {name : Text} {inner : Entries} (h : KeywordsReferInto draft names keywords)
    (hn : name ∈ schemaKeywords) (hi : KeywordsReferInto draft names inner) :
    KeywordsReferInto draft names (keywords.put name (.obj inner)) := by
  have hother : name ∉ tableKeywords ∧ name ∉ definitionsKeywords
      ∧ name ≠ Text.ofString "$ref" := by
    simp only [schemaKeywords, List.mem_cons, List.not_mem_nil, or_false] at hn
    rcases hn with rfl | rfl <;> exact ⟨by decide, by decide, by decide⟩
  refine h.put hother.2.1 ⟨fun hk => absurd (Key.text.inj hk) hother.2.2, fun keyword hk i hmem => ?_⟩
  cases hk
  simp only [subschemas, hother.1, hn, if_false, if_true, List.mem_singleton] at hmem
  exact hmem ▸ hi.obj

end KeywordsReferInto

end Json

/-! ### Keywords that refer to nothing -/

open Json

namespace Schema

/-- The keywords that a document is read by: those that refer or lead to schemas, and the title of
an entry of the definitions table. -/
def structuralKeywords : List Text :=
  Text.ofString "title" :: linkingKeywords

/-- No custom property of an object is named like a structural keyword. -/
def Unambiguous (attributes : Json.Entries) : Prop :=
  ∀ e ∈ customProperties attributes, ∀ t ∈ structuralKeywords, e.1 ≠ .text t

/-- A custom property leads to no schema. -/
theorem Unambiguous.not_linking {attributes : Json.Entries} (h : Unambiguous attributes) :
    ∀ e ∈ customProperties attributes, e.1.isLinking = false := by
  intro e he
  have hne := h e he
  cases hk : e.1 with
  | text t =>
    rw [hk] at hne
    simp only [Key.isLinking, List.contains_eq_mem, decide_eq_false_iff_not]
    exact fun ht => hne t (List.mem_cons_of_mem _ ht) rfl
  | _ => rfl

end Schema

namespace Keywords

variable {draft : Draft} {names : List Text} {options : Options} {attributes entries : Json.Entries}

theorem keywordsReferInto_ofLogicalType :
    KeywordsReferInto draft names (ofLogicalType options attributes) := by
  unfold ofLogicalType
  split
  · rename_i l _
    have hothers : ∀ hints, ∀ e ∈ l.keywords hints, e.1.isLinking = false := by
      cases l <;> decide
    exact .of_others (hothers _)
  · exact .of_others (by simp)

theorem keywordsReferInto_withType (type : SchemaType) :
    KeywordsReferInto draft names (withType options attributes type) :=
  keywordsReferInto_ofLogicalType.putIfAbsent_other (by decide) _

theorem keywordsReferInto_apply (scalar : Scalar) (claimed : Bool)
    (h : KeywordsReferInto draft names entries) :
    KeywordsReferInto draft names (scalar.apply claimed entries) := by
  have hbinary : KeywordsReferInto draft names (Scalar.apply.binary claimed entries) := by
    unfold Scalar.apply.binary
    split
    · exact h
    · exact (h.put_other (by decide) _).put_other (by decide) _
  cases scalar with
  | fixed => exact hbinary
  | primitive p =>
    show KeywordsReferInto draft names (if _ then _ else _)
    split
    · exact hbinary
    · exact h.putIfAbsent_other (by decide) _

theorem keywordsReferInto_describe (h : KeywordsReferInto draft names entries) :
    KeywordsReferInto draft names (describe attributes entries) := by
  unfold describe
  split
  · exact h.put_other (by decide) _
  · exact h

/-- The doc and the custom properties of an object refer to nothing. -/
theorem keywordsReferInto_annotate (ha : Schema.Unambiguous attributes)
    (h : KeywordsReferInto draft names entries) :
    KeywordsReferInto draft names (annotate attributes entries) :=
  forall_mem_merge respects_keywordRefersInto (keywordsReferInto_describe h)
    (KeywordsReferInto.of_others ha.not_linking)

/-- The doc and the default of a field refer to nothing. -/
theorem keywordsReferInto_decorate {field : Json.Entries}
    (h : KeywordsReferInto draft names entries) :
    KeywordsReferInto draft names (decorate field entries) := by
  have hdescribed : KeywordsReferInto draft names (describe field entries) :=
    keywordsReferInto_describe h
  unfold decorate
  dsimp only
  split
  · exact KeywordsReferInto.put_other (forall_mem_erase hdescribed) (by decide) _
  · exact hdescribed

theorem keywordsReferInto_nullableScalar (member : Json) (p : Primitive) :
    KeywordsReferInto draft names (nullableScalar options member p) := by
  unfold nullableScalar
  dsimp only
  split
  · rename_i l _
    have hothers : ∀ (l : LogicalType) (hints : Bool), ∀ e ∈ l.details hints,
        e.1.isLinking = false := by
      intro l
      cases l <;> decide
    refine .of_others fun e he => ?_
    rcases List.mem_cons.1 he with rfl | he
    · rfl
    · exact hothers l _ e he
  · exact .of_others fun e he => by
      rw [List.mem_singleton.1 he]
      rfl

/-- A reference to one of the names. -/
theorem keywordsReferInto_reference {name : Text} (h : name ∈ names) :
    KeywordsReferInto draft names (reference draft name) := by
  intro e he
  rw [List.mem_singleton.1 he]
  exact ⟨⟨fun _ => ⟨name, h, rfl⟩, fun keyword _ i hi => by cases hi⟩,
    fun t ht hk => absurd (Key.text.inj hk ▸ ht) (by decide)⟩

/-- A choice refers where its branches refer. -/
theorem keywordsReferInto_oneOf {branches : List Json} (h : ∀ j ∈ branches, RefersInto draft names j) :
    KeywordsReferInto draft names (oneOf branches) := by
  intro e he
  rw [List.mem_singleton.1 he]
  refine ⟨⟨fun hk => absurd (Key.text.inj hk) (by decide), fun keyword hk i hi => h i ?_⟩,
    fun t ht hk => absurd (Key.text.inj hk ▸ ht) (by decide)⟩
  cases hk
  exact hi

theorem refersInto_nullSchema : RefersInto draft names nullSchema := by
  refine refersInto_obj fun e he => entryRefersInto_of_other ?_
  rw [List.mem_singleton.1 he]
  rfl

/-- The frame of a record refers where its properties refer. -/
theorem keywordsReferInto_recordFrame {name : Text} {properties : Json.Entries}
    (required : List Json) (h : ∀ e ∈ properties, RefersInto draft names e.2) :
    KeywordsReferInto draft names (recordFrame options name attributes properties required) := by
  have htype : KeywordsReferInto draft names (withType options attributes .object) :=
    keywordsReferInto_withType _
  have htitle := htype.put_other (by decide : Text.ofString "title" ∉ linkingKeywords)
    (.str (Name.localOf name))
  have hproperties := htitle.put (by decide : Text.ofString "properties" ∉ definitionsKeywords)
    (entryRefersInto_table (by decide) h)
  have hrequired := hproperties.put_other (by decide : Text.ofString "required" ∉ linkingKeywords)
    (.arr required)
  have hclosed : EntryRefersInto draft names (.text "additionalProperties", .bool false) :=
    ⟨fun hk => absurd hk (by decide), fun keyword _ i hi => by cases hi⟩
  unfold recordFrame
  dsimp only
  split <;> split
  · exact hproperties.put (by decide) hclosed
  · exact hrequired.put (by decide) hclosed
  · exact hproperties
  · exact hrequired

/-- The title of the frame of a record is the local name of the record. -/
theorem title_recordFrame {name : Text} {properties : Json.Entries} (required : List Json) :
    (recordFrame options name attributes properties required).attr? "title" =
      some (.str (Name.localOf name)) := by
  have hother : ∀ (keyword : Text) (value : Json) (es : Json.Entries),
      keyword ≠ Text.ofString "title" → es.attr? "title" = some (.str (Name.localOf name)) →
      (es.put keyword value).attr? "title" = some (.str (Name.localOf name)) := by
    intro keyword value es hne h
    rw [Entries.attr?_put_of_ne hne, h]
  have htitle := Entries.attr?_put_self "title" (.str (Name.localOf name))
    (withType options attributes .object)
  have hproperties := hother "properties" (.obj properties) _ (by decide) htitle
  have hrequired := hother "required" (.arr required) _ (by decide) hproperties
  unfold recordFrame
  dsimp only
  split <;> split
  · exact hother _ _ _ (by decide) hproperties
  · exact hother _ _ _ (by decide) hrequired
  · exact hproperties
  · exact hrequired

/-- The doc and the custom properties leave the title alone. -/
theorem title_annotate (ha : Schema.Unambiguous attributes) :
    (annotate attributes entries).attr? "title" = entries.attr? "title" := by
  have hcustom : ∀ e ∈ Schema.customProperties attributes, e.1 ≠ Key.text "title" :=
    fun e he => ha e he _ List.mem_cons_self
  have hmerge : (annotate attributes entries).attr? "title" =
      (describe attributes entries).attr? "title" :=
    get?_merge_of_absent (Key.sharp_text _) hcustom
  rw [hmerge]
  unfold describe
  split
  · exact Entries.attr?_put_of_ne (by decide) _ _
  · rfl

end Keywords

/-! ### Keywords around those of the nodes below -/

namespace Conversion

open Keywords

variable {draft : Draft} {names : List Text} {options : Options} {attributes inner : Json.Entries}

theorem keywordsReferInto_arrayKeywords (ha : Schema.Unambiguous attributes)
    (h : KeywordsReferInto draft names inner) :
    KeywordsReferInto draft names (arrayKeywords options attributes inner) :=
  keywordsReferInto_annotate ha
    ((keywordsReferInto_withType _).put_schema (by decide) h)

theorem keywordsReferInto_mapKeywords (ha : Schema.Unambiguous attributes)
    (h : KeywordsReferInto draft names inner) :
    KeywordsReferInto draft names (mapKeywords options attributes inner) :=
  keywordsReferInto_annotate ha
    ((keywordsReferInto_withType _).put_schema (by decide) h)

theorem keywordsReferInto_referenceKeywords (ha : Schema.Unambiguous attributes)
    (h : KeywordsReferInto draft names inner) :
    KeywordsReferInto draft names (referenceKeywords options attributes inner) :=
  keywordsReferInto_annotate ha
    (forall_mem_mergeAbsent respects_keywordRefersInto keywordsReferInto_ofLogicalType h)

theorem keywordsReferInto_recordKeywords {name : Text} {properties : Json.Entries}
    (required : List Json) (ha : Schema.Unambiguous attributes)
    (h : ∀ e ∈ properties, RefersInto draft names e.2) :
    KeywordsReferInto draft names (recordKeywords options name attributes properties required) :=
  keywordsReferInto_annotate ha (keywordsReferInto_recordFrame required h)

theorem title_recordKeywords {name : Text} {properties : Json.Entries} (required : List Json)
    (ha : Schema.Unambiguous attributes) :
    (recordKeywords options name attributes properties required).attr? "title" =
      some (.str (Name.localOf name)) :=
  (title_annotate ha).trans (title_recordFrame required)

/-- The keywords of an enum or a fixed type refer to nothing. -/
theorem keywordsReferInto_leafKeywords {kind : Leaf} {qualified : Text} {entries : Json.Entries}
    (ha : Schema.Unambiguous attributes)
    (h : leafKeywords options kind qualified attributes = .ok entries) :
    KeywordsReferInto draft names (annotate attributes entries) := by
  refine keywordsReferInto_annotate ha ?_
  cases kind with
  | fixed =>
    cases h
    exact keywordsReferInto_apply _ _ keywordsReferInto_ofLogicalType
  | enum =>
    unfold leafKeywords enumKeywords at h
    dsimp only at h
    cases hs : Schema.require attributes "symbols" [] with
    | error fault => rw [hs] at h; cases h
    | ok symbols =>
      simp only [hs, bind, Except.bind] at h
      split at h
      · cases h
        exact (keywordsReferInto_withType _).put_other (by decide) _
      · cases h

/-- A property put among others refers where they and it refer. -/
theorem refersInto_addField {field property properties properties' : Json.Entries} {name : Json}
    {nullable : Bool} {required required' : List Json}
    (h : ∀ e ∈ properties, RefersInto draft names e.2)
    (hp : KeywordsReferInto draft names property)
    (hadd : addField field name nullable property properties required
      = .ok (properties', required')) :
    ∀ e ∈ properties', RefersInto draft names e.2 := by
  unfold addField at hadd
  split at hadd
  · cases hadd
  · cases hadd
    exact forall_mem_set (fun e e' hv _ he => hv ▸ he) h (keywordsReferInto_decorate hp).obj

end Conversion

end AvroJsonSchema
