import AvroJsonSchema.Proofs.Validation
import AvroJsonSchema.Proofs.Walk

/-!
# Types as keywords

How a type is written, annotations apart, where unions are not flattened and no logical type and no
custom property stands in the way.  A union of null and a primitive type is a list of two types, any
other union of null and one type is a choice between null and that type, and the rest are choices
between all members.

* **`Renders`**: some keywords write a type.
* **`JsonSchema.essential_put`**: putting a keyword among others, annotations apart.
* **`Conversion.renders_recordKeywords`** and its siblings: the keywords of a node write its type.
-/

namespace AvroJsonSchema

open Table JsonSchema

namespace JsonSchema

/-- The keyword that states a type. -/
def typeEntry (type : SchemaType) : Json.Key × Json :=
  (.text Assertion.type.text, .str type.text)

/-- The keywords of an array, annotations apart. -/
def arrayCore (inner : Json.Entries) : Json.Entries :=
  [typeEntry .array, (.text Assertion.items.text, .obj inner)]

/-- The keywords of a map, annotations apart. -/
def mapCore (inner : Json.Entries) : Json.Entries :=
  [typeEntry .object, (.text Assertion.additionalProperties.text, .obj inner)]

/-- The keywords of an enum, annotations apart. -/
def enumCore (symbols : List Json) : Json.Entries :=
  [typeEntry .string, (.text Assertion.enum.text, .arr symbols)]

/-- The keywords of a choice. -/
def choiceCore (branches : List Json) : Json.Entries :=
  [(.text Assertion.oneOf.text, .arr branches)]

/-- The keywords of a union of null and a primitive type. -/
def pairCore (p : Primitive) : Json.Entries :=
  [(.text Assertion.type.text, .arr ["null", p.schemaType.text])]

/-- The keywords of a reference to a record, annotations apart. -/
def referenceCore (draft : Draft) (name : Text) : Json.Entries :=
  [(.text Assertion.reference.text, .str (draft.referenceRoot ++ name))]

/-- The keywords of a record, annotations apart. -/
def recordCore (options : Options) (properties : Json.Entries) (required : List Json) :
    Json.Entries :=
  typeEntry .object :: (.text Assertion.properties.text, .obj properties)
    :: ((if options.omitEmptyRequired && required.isEmpty then []
        else [(.text Assertion.required.text, .arr required)])
      ++ (if options.additionalPropertiesFalse then
          [(.text Assertion.additionalProperties.text, .bool false)]
        else []))

end JsonSchema

/-- A field of a record with the type and the keywords of its property. -/
structure Property where
  key : Json.Key
  type : AvroType
  keywords : Json.Entries

namespace Property

/-- The field of a property. -/
def field (p : Property) : Json.Key × AvroType :=
  (p.key, p.type)

/-- The entry of a property. -/
def entry (p : Property) : Json.Key × Json :=
  (p.key, .obj p.keywords)

end Property

/-- Some keywords write a type where unions are not flattened.  A field may be required only if it
does not admit null. -/
inductive Renders (options : Options) : AvroType → Json.Entries → Prop
  | primitive {p : Primitive} {keywords : Json.Entries} :
      essential keywords = [typeEntry p.schemaType] → Renders options (.primitive p) keywords
  | array {t : AvroType} {inner keywords : Json.Entries} :
      Renders options t inner → essential keywords = arrayCore inner →
      Renders options (.array t) keywords
  | map {t : AvroType} {inner keywords : Json.Entries} :
      Renders options t inner → essential keywords = mapCore inner →
      Renders options (.map t) keywords
  | choice {branches : List (AvroType × Json.Entries)} {keywords : Json.Entries} :
      (∀ b ∈ branches, Renders options b.1 b.2) →
      essential keywords = choiceCore (branches.map fun b => .obj b.2) →
      Renders options (.union (branches.map Prod.fst)) keywords
  | nullablePrimitive {members : List AvroType} {p : Primitive} {keywords : Json.Entries} :
      (∀ t ∈ members, t = .primitive p ∨ t = .primitive .null) →
      essential keywords = pairCore p → Renders options (.union members) keywords
  | nullable {members : List AvroType} {t : AvroType} {inner keywords : Json.Entries} :
      (∀ s ∈ members, s = t ∨ s = .primitive .null) → t ∈ members → t.family? ≠ some .null →
      Renders options t inner →
      essential keywords = choiceCore [Keywords.nullSchema, .obj inner] →
      Renders options (.union members) keywords
  | record {name : Text} {list : List Property} {required : List Json} {keywords : Json.Entries} :
      (∀ p ∈ list, Renders options p.type p.keywords) →
      (∀ n ∈ required, ∃ p ∈ list, n = Json.ofKey p.key ∧ ¬p.type.AdmitsNull) →
      essential keywords = recordCore options (list.map Property.entry) required →
      Renders options (.record name (list.map Property.field)) keywords
  | enum {name : Text} {symbols : List Json} {keywords : Json.Entries} :
      symbols.all Keywords.symbols?.isText = true → essential keywords = enumCore symbols →
      Renders options (.enum name symbols) keywords
  | fixed {name : Text} {keywords : Json.Entries} :
      essential keywords = [typeEntry .string] → Renders options (.fixed name) keywords
  | reference {name : Text} {keywords : Json.Entries} :
      essential keywords = referenceCore options.draft name →
      Renders options (.reference name) keywords

/-- What keywords write is what they write without annotations. -/
theorem Renders.of_essential {options : Options} {t : AvroType} {keywords keywords' : Json.Entries}
    (h : essential keywords = essential keywords') (hr : Renders options t keywords) :
    Renders options t keywords' := by
  cases hr with
  | primitive he => exact .primitive (h ▸ he)
  | array hi he => exact .array hi (h ▸ he)
  | map hi he => exact .map hi (h ▸ he)
  | choice hb he => exact .choice hb (h ▸ he)
  | nullablePrimitive hm he => exact .nullablePrimitive hm (h ▸ he)
  | nullable hm ht hf hi he => exact .nullable hm ht hf hi (h ▸ he)
  | record hp hq he => exact .record hp hq (h ▸ he)
  | enum hs he => exact .enum hs (h ▸ he)
  | fixed he => exact .fixed (h ▸ he)
  | reference he => exact .reference (h ▸ he)

/-! ### Keywords, annotations apart -/

namespace JsonSchema

/-- A keyword put among others is one of the essential ones unless it is an annotation. -/
theorem essential_put (name : Text) (value : Json) (keywords : Json.Entries) :
    essential (keywords.put name value) =
      if annotates (.text name) then essential keywords
      else (essential keywords).put name value := by
  induction keywords with
  | nil =>
    cases ha : annotates (.text name) with
    | true => simp [Json.Entries.put, Table.set, essential, ha]
    | false => simp [Json.Entries.put, Table.set, essential, ha]
  | cons e es ih =>
    simp only [Json.Entries.put] at ih ⊢
    by_cases hk : (e.1 == Json.Key.text name) = true
    · have he : e.1 = .text name := (Json.Key.sharp_text name _).1.1 hk
      cases ha : annotates (.text name) with
      | true => simp [Table.set, essential, he, ha]
      | false => simp [Table.set, essential, he, ha]
    · cases ha : annotates e.1 with
      | true =>
        simp only [Table.set, hk, Bool.false_eq_true, if_false, essential, List.filter_cons, ha,
          Bool.not_true] at ih ⊢
        exact ih
      | false =>
        simp only [Table.set, hk, Bool.false_eq_true, if_false, essential, List.filter_cons, ha,
          Bool.not_false, if_true] at ih ⊢
        rw [ih]
        split <;> rfl

theorem essential_put_of_annotates {name : Text} (h : annotates (.text name) = true) (value : Json)
    (keywords : Json.Entries) : essential (keywords.put name value) = essential keywords := by
  rw [essential_put, if_pos h]

theorem essential_put_keyword {name : Text} (h : annotates (.text name) = false) (value : Json)
    (keywords : Json.Entries) :
    essential (keywords.put name value) = (essential keywords).put name value := by
  rw [essential_put, h, if_neg Bool.false_ne_true]

theorem essential_erase_of_annotates {name : Text} (h : annotates (.text name) = true)
    (keywords : Json.Entries) : essential (erase (.text name) keywords) = essential keywords := by
  induction keywords with
  | nil => rfl
  | cons e es ih =>
    by_cases hk : (e.1 == Json.Key.text name) = true
    · have he : e.1 = .text name := (Json.Key.sharp_text name _).1.1 hk
      simp [erase, essential, he, h]
    · simp only [erase, hk, Bool.false_eq_true, if_false, essential, List.filter_cons] at ih ⊢
      rw [ih]

end JsonSchema

/-! ### What the keywords of a node amount to -/

theorem Json.Entries.textKeyed_nil : TextKeyed [] :=
  ⟨by simp, by simp [keys]⟩

theorem Json.Entries.TextKeyed.sharp {keywords : Json.Entries} (h : keywords.TextKeyed) :
    ∀ e ∈ keywords, Sharp e.1 := by
  intro e he
  obtain ⟨t, ht⟩ := h.1 e he
  exact ht ▸ Json.Key.sharp_text t

theorem Json.Entries.TextKeyed.put {keywords : Json.Entries} (h : keywords.TextKeyed) (name : Text)
    (value : Json) : (keywords.put name value).TextKeyed := by
  have hsharp := Json.Key.sharp_text name
  refine ⟨fun e he => ?_, nodup_keys_set hsharp h.2 value⟩
  rcases mem_set_sharp hsharp he with he | rfl
  · exact h.1 e he
  · exact ⟨name, rfl⟩

theorem Json.Entries.TextKeyed.describe {keywords : Json.Entries} (h : keywords.TextKeyed)
    (attributes : Json.Entries) : (Keywords.describe attributes keywords).TextKeyed := by
  unfold Keywords.describe
  split
  · exact h.put "description" _
  · exact h

/-- An object has no recognised logical type and no custom property. -/
def Schema.Bare (attributes : Json.Entries) : Prop :=
  Schema.logicalType? attributes = none ∧ Schema.customProperties attributes = []

namespace Keywords

open Schema

variable {options : Options} {attributes keywords : Json.Entries}

theorem symbols_areTexts {symbols : Json} {items : List Json} (h : symbols? symbols = some items) :
    items.all symbols?.isText = true := by
  unfold symbols? at h
  split at h
  · split at h
    · cases h
      assumption
    · cases h
  · cases h

theorem annotate_of_bare (h : Bare attributes) (keywords : Json.Entries) :
    annotate attributes keywords = describe attributes keywords := by
  rw [annotate, h.2]
  rfl

theorem essential_describe (attributes keywords : Json.Entries) :
    essential (describe attributes keywords) = essential keywords := by
  unfold describe
  split
  · exact essential_put_of_annotates (by decide) _ _
  · rfl

theorem essential_annotate (h : Bare attributes) (keywords : Json.Entries) :
    essential (annotate attributes keywords) = essential keywords := by
  rw [annotate_of_bare h, essential_describe]

/-- The doc and the default of a field do not matter. -/
theorem essential_decorate (field keywords : Json.Entries) :
    essential (decorate field keywords) = essential keywords := by
  have hdescribe := essential_describe field keywords
  unfold decorate
  dsimp only
  split
  · rw [essential_put_of_annotates (by decide)]
    exact (essential_erase_of_annotates (by decide) _).trans hdescribe
  · exact hdescribe

theorem ofLogicalType_of_bare (h : Bare attributes) : ofLogicalType options attributes = [] := by
  rw [ofLogicalType, h.1]

theorem withType_of_bare (h : Bare attributes) (type : SchemaType) :
    withType options attributes type = [typeEntry type] := by
  rw [withType, ofLogicalType_of_bare h]
  rfl

theorem essential_primitive (p : Primitive) :
    essential ((Scalar.primitive p).apply false []) = [typeEntry p.schemaType] := by
  cases p <;> rfl

theorem ofScalar_of_bare (h : Bare attributes) (scalar : Scalar) :
    ofScalar options attributes scalar = scalar.apply false [] := by
  rw [ofScalar, ofLogicalType_of_bare h, h.1]
  rfl

/-- What the frame of a record amounts to. -/
theorem essential_recordFrame (h : Bare attributes) (name : Text) (properties : Json.Entries)
    (required : List Json) :
    essential (recordFrame options name attributes properties required)
      = recordCore options properties required := by
  have htitle : annotates (.text "title") = true := by decide
  have hproperties : annotates (.text "properties") = false := by decide
  have hrequired : annotates (.text "required") = false := by decide
  have hclosed : annotates (.text "additionalProperties") = false := by decide
  have htype : essential [typeEntry .object] = [typeEntry .object] := rfl
  unfold recordFrame recordCore
  dsimp only
  split <;> split <;>
    simp only [essential_put_keyword hclosed, essential_put_keyword hrequired,
      essential_put_keyword hproperties, essential_put_of_annotates htitle, withType_of_bare h,
      htype] <;>
    rfl

end Keywords

namespace Conversion

open Schema Keywords Json.Entries

variable {options : Options} {attributes inner : Json.Entries}

theorem renders_primitive (h : Bare attributes) (p : Primitive) :
    Renders options (.primitive p)
      (annotate attributes (ofScalar options attributes (.primitive p))) := by
  refine .primitive ?_
  rw [essential_annotate h, ofScalar_of_bare h, essential_primitive]

theorem renders_arrayKeywords {t : AvroType} (h : Bare attributes) (hi : Renders options t inner) :
    Renders options (.array t) (arrayKeywords options attributes inner) := by
  refine .array hi ?_
  rw [arrayKeywords, essential_annotate h, essential_put_keyword (by decide), withType_of_bare h]
  rfl

theorem renders_mapKeywords {t : AvroType} (h : Bare attributes) (hi : Renders options t inner) :
    Renders options (.map t) (mapKeywords options attributes inner) := by
  refine .map hi ?_
  rw [mapKeywords, essential_annotate h, essential_put_keyword (by decide), withType_of_bare h]
  rfl

theorem renders_recordKeywords {name : Text} {list : List Property} {required : List Json}
    (h : Bare attributes) (hlist : ∀ p ∈ list, Renders options p.type p.keywords)
    (hrequired : ∀ n ∈ required, ∃ p ∈ list, n = Json.ofKey p.key ∧ ¬p.type.AdmitsNull) :
    Renders options (.record name (list.map Property.field))
      (recordKeywords options name attributes (list.map Property.entry) required) := by
  refine .record hlist hrequired ?_
  rw [recordKeywords, essential_annotate h, essential_recordFrame h]

/-- The keywords of an enum or a fixed type write it. -/
theorem renders_leafKeywords {kind : Leaf} {qualified : Text} {keywords : Json.Entries}
    (h : Bare attributes) (hk : leafKeywords options kind qualified attributes = .ok keywords) :
    ∃ meaning, NamedType.ofLeaf? kind attributes = some meaning
      ∧ Renders options (meaning.type qualified) (annotate attributes keywords)
      ∧ (annotate attributes keywords).TextKeyed := by
  cases kind with
  | fixed =>
    cases hk
    rw [ofScalar_of_bare h]
    refine ⟨.fixed, rfl, .fixed ?_, ?_⟩
    · rw [essential_annotate h]
      rfl
    · rw [annotate_of_bare h]
      exact (((textKeyed_nil.put "type" "string").put "contentEncoding" "base64").describe attributes)
  | enum =>
    unfold leafKeywords enumKeywords at hk
    dsimp only at hk
    cases hs : require attributes "symbols" [] with
    | error fault =>
      rw [hs] at hk
      cases hk
    | ok symbols =>
      simp only [hs, bind, Except.bind] at hk
      split at hk
      · rename_i items hitems
        cases hk
        rw [withType_of_bare h]
        refine ⟨.enum items, ?_, .enum ?_ ?_, ?_⟩
        · rw [NamedType.ofLeaf?, require_ok hs, Option.bind_some, hitems]
          rfl
        · exact symbols_areTexts hitems
        · rw [essential_annotate h, essential_put_keyword (by decide)]
          rfl
        · rw [annotate_of_bare h]
          exact ((textKeyed_nil.put "type" "string").put "enum" (.arr items)).describe attributes
      · cases hk

/-- What an annotated reference amounts to is what its target amounts to. -/
theorem essential_referenceKeywords {target : Json.Entries} (h : Bare attributes)
    (ht : target.TextKeyed) :
    essential (referenceKeywords options attributes target) = essential target := by
  rw [referenceKeywords, essential_annotate h, ofLogicalType_of_bare h,
    mergeAbsent_empty ht.sharp ht.2]

end Conversion

/-! ### Keywords under a header -/

theorem JsonSchema.text_of_annotates {key : Json.Key} (h : annotates key = true) :
    ∃ t, key = .text t := by
  cases key with
  | text t => exact ⟨t, rfl⟩
  | _ => cases h

/-- What is merged into annotations is all that counts in the end. -/
theorem JsonSchema.essential_merge {annotated keywords : Json.Entries}
    (ha : essential annotated = []) (hk : (essential keywords).TextKeyed) :
    essential (annotated.merge keywords) = essential keywords := by
  -- all keys are texts: the annotations are, and so are the others
  have htexts : ∀ e ∈ keywords, ∃ t, e.1 = .text t := by
    intro e he
    by_cases h : annotates e.1 = true
    · exact text_of_annotates h
    · exact hk.1 e (List.mem_filter.2 ⟨he, by simpa using h⟩)
  have hmerge : ∀ l : Json.Entries, (∀ e ∈ l, ∃ t, e.1 = .text t) → ∀ t : Json.Entries,
      essential (t.merge l) = (essential t).merge (essential l) := by
    intro l hl
    induction l with
    | nil => exact fun _ => rfl
    | cons e l ih =>
      intro t
      obtain ⟨⟨name, hname⟩, hrest⟩ := List.forall_mem_cons.1 hl
      obtain ⟨key, value⟩ := e
      cases hname
      rw [merge_cons, ih hrest]
      cases h : annotates (.text name) with
      | true =>
        have hput : essential (t.set (.text name) value) = essential t :=
          essential_put_of_annotates h value t
        have hskip : essential ((.text name, value) :: l) = essential l := by
          simp [essential, h]
        rw [hput, hskip]
      | false =>
        have hput : essential (t.set (.text name) value) = (essential t).set (.text name) value :=
          essential_put_keyword h value t
        have hkeep : essential ((.text name, value) :: l) = (.text name, value) :: essential l := by
          simp [essential, h]
        rw [hput, hkeep, merge_cons]
  rw [hmerge keywords htexts, ha, merge_empty hk.sharp hk.2]

theorem textKeyed_recordCore (options : Options) (properties : Json.Entries) (required : List Json) :
    (recordCore options properties required).TextKeyed := by
  unfold recordCore
  refine ⟨?_, ?_⟩
  · split <;> split <;> simp [typeEntry]
  · split <;> split <;> simp [keys, typeEntry] <;> decide

/-- The keywords that count where a type is written have different texts as their keys. -/
theorem Renders.textKeyed {options : Options} {t : AvroType} {keywords : Json.Entries}
    (h : Renders options t keywords) : (essential keywords).TextKeyed := by
  have hone : ∀ (name : Text) (value : Json), Json.Entries.TextKeyed [(.text name, value)] :=
    fun name value => Json.Entries.textKeyed_nil.put name value
  have htyped : ∀ (type : SchemaType) (a : Assertion) (value : Json), a ≠ .type →
      Json.Entries.TextKeyed [typeEntry type, (.text a.text, value)] := by
    intro type a value ha
    refine ⟨by simp [typeEntry], ?_⟩
    cases a <;> first | exact absurd rfl ha | (simp [keys, typeEntry]; decide)
  cases h with
  | primitive he => exact he ▸ hone _ _
  | array _ he => exact he ▸ htyped .array .items _ (by decide)
  | map _ he => exact he ▸ htyped .object .additionalProperties _ (by decide)
  | choice _ he => exact he ▸ hone _ _
  | nullablePrimitive _ he => exact he ▸ hone _ _
  | nullable _ _ _ _ he => exact he ▸ hone _ _
  | record _ _ he => exact he ▸ textKeyed_recordCore _ _ _
  | enum _ he => exact he ▸ htyped .string .enum _ (by decide)
  | fixed he => exact he ▸ hone _ _
  | reference he => exact he ▸ hone _ _

end AvroJsonSchema
