import AvroJsonSchema.Proofs.Kinds

/-!
# Where the keywords of a node come from

A wrapper adds nothing to what it wraps, and a union of null and another type that is flattened adds
nothing to that type.  So the keywords of a node are those of the node that these lead down to, its
origin.  Keywords are either generated, under names of a fixed list, or they are custom properties of
an object, which are put in last.

* **`Schema.custom?`**: what the custom properties of a node hold under a name.
* **`Keywords.generated`**: the names of the keywords that a conversion decides itself.
* **`Keywords.attr?_annotate`**: a custom property stands as it is, and any other keyword stays.
* **`Conversion.origin`**, **`Conversion.node_origin`**: a node is converted as its origin is.
* **`Conversion.annotated_of_type`**: an object of a named type has its doc and custom properties
  put in.
-/

namespace AvroJsonSchema

open Table

namespace Schema

/-- What the custom properties of an object hold under a name. -/
def customProperty? (name : Text) (attributes : Json.Entries) : Option Json :=
  Json.Entries.attr? name (ofPairs (customProperties attributes))

/-- What the custom properties of a node hold under a name. -/
def custom? (name : Text) : Json → Option Json
  | .obj attributes => customProperty? name attributes
  | _ => none

/-- A name with a meaning is under no custom property. -/
theorem customProperty?_of_reserved {name : Text} (h : isCustom (.text name) = false)
    (attributes : Json.Entries) : customProperty? name attributes = none := by
  have hsharp := Json.Key.sharp_text name
  have habsent : ∀ e ∈ customProperties attributes, e.1 ≠ Json.Key.text name := by
    intro e he hk
    have hcustom := (List.mem_filter.1 he).2
    rw [hk, h] at hcustom
    cases hcustom
  exact get?_merge_of_absent hsharp habsent

/-- An object without custom properties holds none under any name. -/
theorem customProperty?_of_nil {attributes : Json.Entries} (h : customProperties attributes = [])
    (name : Text) : customProperty? name attributes = none := by
  rw [customProperty?, h]
  rfl

end Schema

/-! ### Names of keywords -/

/-- The keys of some keywords are among some names. -/
def Json.Entries.KeysAmong (names : List Text) (keywords : Json.Entries) : Prop :=
  ∀ e ∈ keywords, ∃ name ∈ names, e.1 = Json.Key.text name

namespace Json.Entries.KeysAmong

variable {names : List Text} {keywords : Json.Entries}

theorem respects (names : List Text) :
    Respects fun e : Json.Key × Json => ∃ name ∈ names, e.1 = Json.Key.text name := by
  rintro e e' - hk ⟨name, hn, he⟩
  rw [he] at hk
  exact ⟨name, hn, (Json.Key.sharp_text name e.1).1.1 hk⟩

theorem put (h : keywords.KeysAmong names) {name : Text} (hn : name ∈ names) (value : Json) :
    (keywords.put name value).KeysAmong names :=
  forall_mem_set (respects names) h ⟨name, hn, rfl⟩

theorem putIfAbsent (h : keywords.KeysAmong names) {name : Text} (hn : name ∈ names)
    (value : Json) : (keywords.putIfAbsent name value).KeysAmong names :=
  forall_mem_setIfAbsent (respects names) h ⟨name, hn, rfl⟩

theorem not_mem_keys (h : keywords.KeysAmong names) {name : Text} (hn : name ∉ names) :
    Json.Key.text name ∉ keywords.keys := by
  intro hk
  obtain ⟨e, he, hname⟩ := List.mem_map.1 hk
  obtain ⟨other, ho, hother⟩ := h e he
  rw [hother] at hname
  exact hn (Json.Key.text.inj hname ▸ ho)

theorem attr?_eq_none (h : keywords.KeysAmong names) {name : Text} (hn : name ∉ names) :
    keywords.attr? name = none :=
  (get?_eq_none_iff (Json.Key.sharp_text name)).2 (h.not_mem_keys hn)

end Json.Entries.KeysAmong

namespace Keywords

/-- The names of the keywords that a logical type decides. -/
def decided : List Text :=
  ["type", "format", "javaType"]

/-- The names of the keywords that a conversion decides itself. -/
def generated : List Text :=
  decided ++ (["contentEncoding", "title", "properties", "required", "additionalProperties",
    "items", "enum", "oneOf", "description", "$ref"] : List Text)

variable {options : Options} {attributes keywords : Json.Entries}

theorem decided_keywords (l : LogicalType) (hints : Bool) :
    (l.keywords hints).KeysAmong decided := by
  unfold Json.Entries.KeysAmong
  cases l <;> cases hints <;> decide

theorem generated_of_decided (h : keywords.KeysAmong decided) : keywords.KeysAmong generated := by
  intro e he
  obtain ⟨name, hn, hk⟩ := h e he
  exact ⟨name, List.mem_append_left _ hn, hk⟩

theorem generated_ofLogicalType : (ofLogicalType options attributes).KeysAmong generated := by
  unfold ofLogicalType
  split
  · exact generated_of_decided (decided_keywords _ _)
  · simp [Json.Entries.KeysAmong]

theorem generated_withType (type : SchemaType) :
    (withType options attributes type).KeysAmong generated :=
  generated_ofLogicalType.putIfAbsent (by decide) _

theorem generated_apply (h : keywords.KeysAmong generated) (scalar : Scalar) (claimed : Bool) :
    (scalar.apply claimed keywords).KeysAmong generated := by
  have hbinary : (Scalar.apply.binary claimed keywords).KeysAmong generated := by
    unfold Scalar.apply.binary
    split
    · exact h
    · exact (h.put (by decide) _).put (by decide) _
  cases scalar with
  | fixed => exact hbinary
  | primitive p =>
    show Json.Entries.KeysAmong generated (if _ then _ else _)
    split
    · exact hbinary
    · exact h.putIfAbsent (by decide) _

theorem generated_describe (h : keywords.KeysAmong generated) :
    (describe attributes keywords).KeysAmong generated := by
  unfold describe
  split
  · exact h.put (by decide) _
  · exact h

theorem generated_recordFrame (name : Text) (properties : Json.Entries) (required : List Json) :
    (recordFrame options name attributes properties required).KeysAmong generated := by
  have htype : (withType options attributes .object).KeysAmong generated :=
    generated_withType .object
  have htitle := htype.put (by decide : Text.ofString "title" ∈ generated)
    (.str (Name.localOf name))
  have hproperties := htitle.put (by decide : Text.ofString "properties" ∈ generated)
    (.obj properties)
  have hrequired := hproperties.put (by decide : Text.ofString "required" ∈ generated)
    (.arr required)
  unfold recordFrame
  dsimp only
  split <;> split
  · exact hproperties.put (by decide) _
  · exact hrequired.put (by decide) _
  · exact hproperties
  · exact hrequired

/-- A nullable scalar has the keywords of a logical type at most. -/
theorem decided_nullableScalar (options : Options) (member : Json) (p : Primitive) :
    (nullableScalar options member p).KeysAmong decided := by
  have hdetails : ∀ (l : LogicalType) (hints : Bool), (l.details hints).KeysAmong decided :=
    fun l hints e he => decided_keywords l hints e (List.mem_cons_of_mem _ he)
  unfold nullableScalar
  dsimp only
  split
  · intro e he
    rcases List.mem_cons.1 he with rfl | he
    · exact ⟨_, List.mem_cons_self, rfl⟩
    · exact hdetails _ _ e he
  · intro e he
    rw [List.mem_singleton.1 he]
    exact ⟨_, List.mem_cons_self, rfl⟩

theorem generated_oneOf (branches : List Json) : (oneOf branches).KeysAmong generated := by
  intro e he
  rw [List.mem_singleton.1 he]
  exact ⟨"oneOf", by decide, rfl⟩

/-! ### What stands in annotated keywords -/

/-- A custom property stands as it is, and any other keyword is the one under the doc. -/
theorem attr?_annotate (name : Text) :
    (annotate attributes keywords).attr? name =
      (Schema.customProperty? name attributes).or ((describe attributes keywords).attr? name) :=
  get?_merge (Json.Key.sharp_text name) _ _

theorem attr?_describe_of_ne {name : Text} (h : Text.ofString "description" ≠ name) :
    (describe attributes keywords).attr? name = keywords.attr? name := by
  unfold describe
  split
  · exact Json.Entries.attr?_put_of_ne h _ _
  · rfl

theorem attr?_describe_description {doc : Json} (h : attributes.attr? "doc" = some doc) :
    (describe attributes keywords).attr? "description" = some doc := by
  unfold describe
  rw [h]
  exact Json.Entries.attr?_put_self _ _ _

/-- A keyword other than the description stays under the doc and the custom properties of an object
that has no custom property of its name. -/
theorem attr?_annotate_of_none {name : Text} (h : Schema.customProperty? name attributes = none)
    (hd : Text.ofString "description" ≠ name) :
    (annotate attributes keywords).attr? name = keywords.attr? name := by
  rw [attr?_annotate, h, Option.none_or, attr?_describe_of_ne hd]

/-- The doc and the default of a field leave every other keyword alone. -/
theorem attr?_decorate_of_ne {name : Text} (hd : Text.ofString "description" ≠ name)
    (hdefault : Text.ofString "default" ≠ name) (field : Json.Entries) :
    (decorate field keywords).attr? name = keywords.attr? name := by
  unfold decorate
  dsimp only
  split
  · have hkey : Json.Key.text (Text.ofString "default") ≠ .text name :=
      fun h => hdefault (Json.Key.text.inj h)
    have herase : Json.Entries.attr? name ((describe field keywords).erase (.text "default")) =
        (describe field keywords).attr? name :=
      Table.get?_erase_of_ne (Json.Key.sharp_text name) hkey _
    rw [Json.Entries.attr?_put_of_ne hdefault, herase, attr?_describe_of_ne hd]
  · exact attr?_describe_of_ne hd

/-- The properties stand in the frame of a record. -/
theorem properties_recordFrame (name : Text) (properties : Json.Entries) (required : List Json) :
    (recordFrame options name attributes properties required).attr? "properties" =
      some (.obj properties) := by
  have hother : ∀ (keyword : Text) (value : Json) (es : Json.Entries),
      keyword ≠ Text.ofString "properties" → es.attr? "properties" = some (.obj properties) →
      (es.put keyword value).attr? "properties" = some (.obj properties) := by
    intro keyword value es hne h
    rw [Json.Entries.attr?_put_of_ne hne, h]
  have hproperties := Json.Entries.attr?_put_self "properties" (.obj properties)
    ((withType options attributes .object).put "title" (.str (Name.localOf name)))
  have hrequired := hother "required" (.arr required) _ (by decide) hproperties
  unfold recordFrame
  dsimp only
  split <;> split
  · exact hother _ _ _ (by decide) hproperties
  · exact hother _ _ _ (by decide) hrequired
  · exact hproperties
  · exact hrequired

/-- Under a name that no keyword is generated for stands a custom property if anything does, and
it stands there once. -/
theorem annotate_of_not_generated (attributes : Json.Entries) {name : Text}
    (hn : name ∉ generated) (h : keywords.KeysAmong generated) :
    (annotate attributes keywords).attr? name = Schema.customProperty? name attributes
      ∧ Once (Json.Key.text name) (annotate attributes keywords) := by
  have hdescribed : (describe attributes keywords).KeysAmong generated := generated_describe h
  refine ⟨?_, ?_⟩
  · rw [attr?_annotate, hdescribed.attr?_eq_none hn, Option.or_none]
  · exact (once_of_not_mem (hdescribed.not_mem_keys hn)).merge (Json.Key.sharp_text name) _

end Keywords

namespace Conversion

open Schema Step

/-- The keywords of an enum or a fixed type are generated. -/
theorem generated_leafKeywords {options : Options} {kind : Leaf} {qualified : Text}
    {attributes keywords : Json.Entries}
    (h : leafKeywords options kind qualified attributes = .ok keywords) :
    keywords.KeysAmong Keywords.generated := by
  cases kind with
  | fixed =>
    cases h
    exact Keywords.generated_apply Keywords.generated_ofLogicalType _ _
  | enum =>
    unfold leafKeywords enumKeywords at h
    dsimp only at h
    cases hs : require attributes "symbols" [] with
    | error fault =>
      rw [hs] at h
      cases h
    | ok symbols =>
      simp only [hs, bind, Except.bind] at h
      split at h
      · cases h
        exact (Keywords.generated_withType _).put (by decide) _
      · cases h

/-- So are the keywords of a union of null and another type that is not flattened. -/
theorem generated_of_nullable {setup : Setup} {members : List Json} {member : Json} {enclosing : Text}
    {c c' : Context} {es : Json.Entries} (hu : unionForm members = .nullable member)
    (hf : setup.options.flattenNullableUnions = false)
    (h : outcome (union setup members enclosing) c = (.ok es, c')) :
    es.KeysAmong Keywords.generated := by
  obtain ⟨-, -, ⟨p, -, rfl, -⟩ | ⟨-, branch, -, rfl⟩⟩ := nullable_ok hu hf h
  · exact Keywords.generated_of_decided (Keywords.decided_nullableScalar _ _ _)
  · exact Keywords.generated_oneOf _

/-! ### The origin of a node -/

/-- The node whose keywords are those of a node: it is reached through wrappers, and through unions
of null and another type if they are flattened. -/
def origin (flatten : Bool) (schema : Json) : Json :=
  match h : shape schema with
  | .wrapper inner =>
    have := size_lt_of_wrapper h
    origin flatten inner
  | .union members =>
    match hu : unionForm members with
    | .nullable member =>
      have : member.size < schema.size := by
        have := Json.size_le_sizeOfItems (mem_of_unionForm hu)
        rw [eq_arr_of_shape h, Json.size]
        omega
      if flatten then origin flatten member else schema
    | _ => schema
  | _ => schema
termination_by schema.size

variable {schema : Json} {flatten : Bool}

theorem origin_of_wrapper {inner : Json} (h : shape schema = .wrapper inner) :
    origin flatten schema = origin flatten inner := by
  rw [origin]
  split
  · rename_i hs
    rw [h] at hs
    cases hs
    rfl
  · rename_i hs
    rw [h] at hs
    cases hs
  · rename_i hs _
    exact absurd h (hs inner)

theorem origin_of_nullable {members : List Json} {member : Json}
    (h : shape schema = .union members) (hu : unionForm members = .nullable member) :
    origin flatten schema = if flatten then origin flatten member else schema := by
  rw [origin]
  split
  · rename_i hs
    rw [h] at hs
    cases hs
  · rename_i hs
    rw [h] at hs
    cases hs
    split
    · rename_i hm
      rw [hu] at hm
      cases hm
      rfl
    · rename_i hm
      exact absurd hu (hm member)
  · rename_i hs
    exact absurd h (hs members)

theorem origin_of_choice {members : List Json} (h : shape schema = .union members)
    (hu : ∀ member, unionForm members ≠ .nullable member) : origin flatten schema = schema := by
  rw [origin]
  split
  · rename_i hs
    rw [h] at hs
    cases hs
  · rename_i hs
    rw [h] at hs
    cases hs
    split
    · rename_i hm
      exact absurd hm (hu _)
    · rfl
  · rfl

theorem origin_of_other (hw : ∀ inner, shape schema ≠ .wrapper inner)
    (hu : ∀ members, shape schema ≠ .union members) : origin flatten schema = schema := by
  rw [origin]
  split
  · rename_i hs
    exact absurd hs (hw _)
  · rename_i hs
    exact absurd hs (hu _)
  · rfl

/-- **A node is converted as its origin is**, within the same namespace. -/
theorem node_origin (setup : Setup) (schema : Json) (enclosing : Text) :
    node setup schema enclosing =
      node setup (origin setup.options.flattenNullableUnions schema) enclosing := by
  induction schema using Schema.induction with
  | step schema ih =>
    cases hs : shape schema with
    | wrapper inner =>
      rw [node_of_wrapper hs, origin_of_wrapper hs]
      exact ih inner (.inner hs)
    | union members =>
      cases hu : unionForm members with
      | nullable member =>
        rw [origin_of_nullable hs hu]
        cases hf : setup.options.flattenNullableUnions with
        | false => rfl
        | true =>
          have hmember := ih member (.member hs (mem_of_unionForm hu))
          rw [hf] at hmember
          rw [node_of_union hs, union_of_flattened hu hf, if_pos rfl]
          exact hmember
      | fault fault => rw [origin_of_choice hs (by simp [hu])]
      | choice => rw [origin_of_choice hs (by simp [hu])]
    | _ => rw [origin_of_other (by simp [hs]) (by simp [hs])]

/-- A node of a primitive kind comes from a name of this kind or from an object of it. -/
theorem origin_of_primitive_kind (flatten : Bool) {t : Text} {p : Primitive}
    (h : kind schema = .ok (.str t)) (hp : Primitive.ofText? t = some p) :
    origin flatten schema = .str t
      ∨ ∃ attributes, origin flatten schema = .obj attributes
        ∧ shape (.obj attributes) = .primitive p attributes := by
  induction schema using Schema.induction with
  | step schema ih =>
    rcases kind_cases h with ⟨_, -, hk⟩ | ⟨rfl, -⟩ | ⟨attributes, rfl, ht, -⟩ | ⟨inner, hs, hk⟩
    · rw [Json.str.inj hk] at hp
      cases hp
    · have hs : shape (.str t) = .name t := rfl
      exact .inl (origin_of_other (by simp [hs]) (by simp [hs]))
    · have hs := shape_of_primitive ht hp
      exact .inr ⟨attributes, origin_of_other (by simp [hs]) (by simp [hs]), hs⟩
    · rw [origin_of_wrapper hs]
      exact ih inner (.inner hs) hk

/-! ### Annotated nodes -/

/-- An object whose type is a text has its doc and its custom properties put in where it is
converted, unless it is a record that has been entered before. -/
theorem annotated_of_type {setup : Setup} {attributes es : Json.Entries} {t enclosing : Text}
    {c c' : Context} (ht : attributes.attr? "type" = some (.str t))
    (hnew : ∀ name qualified, shape (.obj attributes) = .record name attributes →
      Name.ofNamed name attributes enclosing = .ok qualified → qualified ∉ c.seen)
    (h : outcome (node setup (.obj attributes) enclosing) c = (.ok es, c')) :
    ∃ keywords, es = Keywords.annotate attributes keywords := by
  have hfits : fits attributes (shape (.obj attributes)) := objectShape_fits attributes
  cases hs : shape (.obj attributes) <;> rw [hs] at hfits
  case union members => exact hfits.elim
  case name name => exact hfits.elim
  case wrapper inner =>
    have htype : attributes.attr? "type" = some inner := hfits
    rw [ht] at htype
    cases htype
    exact absurd trivial (not_plain_of_wrapper hs)
  case malformed fault =>
    rw [node_of_malformed hs] at h
    cases h
  case primitive p es' =>
    obtain rfl : es' = attributes := hfits
    rw [node_of_primitive hs] at h
    cases h
    exact ⟨_, rfl⟩
  case leaf kind name es' =>
    obtain rfl : es' = attributes := hfits
    rw [node_of_leaf hs] at h
    obtain ⟨qualified, keywords, -, -, rfl, -⟩ := leaf_ok h
    exact ⟨keywords, rfl⟩
  case array items es' =>
    obtain ⟨rfl, -⟩ : es' = attributes ∧ _ := hfits
    rw [node_of_array hs] at h
    obtain ⟨inner, -, rfl⟩ := map_ok h
    exact ⟨_, rfl⟩
  case map values es' =>
    obtain ⟨rfl, -⟩ : es' = attributes ∧ _ := hfits
    rw [node_of_map hs] at h
    obtain ⟨inner, -, rfl⟩ := map_ok h
    exact ⟨_, rfl⟩
  case reference name es' =>
    obtain rfl : es' = attributes := hfits
    rw [node_of_reference hs] at h
    obtain ⟨target, -, rfl⟩ := map_ok h
    exact ⟨_, rfl⟩
  case record name es' =>
    obtain rfl : es' = attributes := hfits
    obtain ⟨qualified, hq, ⟨hseen, -⟩ | ⟨-, list, made, c₁, -, -, rfl, -⟩⟩ := record_ok hs h
    · exact absurd hseen (hnew name qualified hs hq)
    · exact ⟨_, rfl⟩

end Conversion

end AvroJsonSchema
