import AvroJsonSchema.Proofs.Origins
import AvroJsonSchema.Proofs.Sessions

/-!
# What a nullable union keeps of its member

A union of null and another type is converted in three ways.  If it is flattened it is the member.
If not, it is a choice between null and the member, or a list of two types where the kind of the
member is a primitive one.  That list is made without a conversion of the member: it knows of the
logical type that the member states itself, and of nothing else that stands in it or below it.

* **`Scalar.decidedType`**: the type of a scalar under a logical type.
* **`Conversion.nullable_scalars_agree`**: when the list of two types and the flattened union have
  the same type, format and class.
* **`Keywords.Carries`**, **`Keywords.Keeps`**: a doc and custom properties are somewhere in a node.
* **`Conversion.keeps_of_union`**: when a nullable union keeps those of its member.
-/

namespace AvroJsonSchema

open Table

namespace Schema

/-- A node has no custom properties. -/
def Uncustomised : Json → Prop
  | .obj attributes => customProperties attributes = []
  | _ => True

/-- The logical type that a node states itself. -/
def statedLogicalType? : Json → Option LogicalType
  | .obj attributes => logicalType? attributes
  | _ => none

end Schema

/-- The JSON Schema type of a primitive type, unless a logical type takes its place. -/
def Scalar.decidedType (p : Primitive) (l : Option LogicalType) : SchemaType :=
  (l.map LogicalType.schemaType).getD p.schemaType

theorem SchemaType.text_injective {a b : SchemaType} (h : a.text = b.text) : a = b := by
  cases a <;> cases b <;> first | rfl | exact absurd h (by decide)

namespace LogicalType

theorem attr?_details_format (l : LogicalType) (hints : Bool) :
    Json.Entries.attr? "format" (l.details hints) = l.format?.map Json.str := by
  unfold details
  cases l.format? <;> cases hints <;> rfl

theorem attr?_details_javaType (l : LogicalType) (hints : Bool) :
    Json.Entries.attr? "javaType" (l.details hints)
      = if hints then some (.str l.javaType) else none := by
  unfold details
  cases l.format? <;> cases hints <;> rfl

end LogicalType

namespace Keywords

open Schema

/-! ### The keywords of a scalar -/

/-- Some keywords have the type, the format and the class of a scalar under a logical type; the type
is written in some way. -/
structure Decided (options : Options) (p : Primitive) (l : Option LogicalType)
    (written : SchemaType → Json) (keywords : Json.Entries) : Prop where
  type : keywords.attr? "type" = some (written (Scalar.decidedType p l))
  format : keywords.attr? "format" = (l.bind LogicalType.format?).map Json.str
  javaType : keywords.attr? "javaType" =
    if options.javaTypeHints then l.map (.str ·.javaType) else none

variable {options : Options} {p : Primitive} {attributes : Json.Entries}

/-- The list of two types goes by the logical type that the member states itself. -/
theorem decided_of_nullableScalar (options : Options) (member : Json) (p : Primitive) :
    Decided options p (statedLogicalType? member) nullableScalar.typePair
      (nullableScalar options member p) := by
  have hnone : Decided options p none nullableScalar.typePair
      [(.text "type", nullableScalar.typePair p.schemaType)] :=
    ⟨rfl, rfl, by cases options.javaTypeHints <;> rfl⟩
  have hsome : ∀ l : LogicalType, Decided options p (some l) nullableScalar.typePair
      ((.text "type", nullableScalar.typePair l.schemaType) :: l.details options.javaTypeHints) :=
    fun l => ⟨rfl, l.attr?_details_format options.javaTypeHints,
      l.attr?_details_javaType options.javaTypeHints⟩
  cases member with
  | obj attributes =>
    unfold nullableScalar statedLogicalType?
    dsimp only
    cases logicalType? attributes with
    | none => exact hnone
    | some l => exact hsome l
  | _ => exact hnone

/-- The keywords of a primitive type go by the logical type of its object. -/
theorem decided_of_scalar (options : Options) (attributes : Json.Entries) (p : Primitive) :
    Decided options p (logicalType? attributes) (.str ·.text)
      (ofScalar options attributes (.primitive p)) := by
  unfold ofScalar ofLogicalType
  cases logicalType? attributes with
  | none => cases p <;> exact ⟨rfl, rfl, by cases options.javaTypeHints <;> rfl⟩
  | some l =>
    have hkeywords : (Scalar.primitive p).apply true (l.keywords options.javaTypeHints)
        = l.keywords options.javaTypeHints := by
      cases p <;> rfl
    show Decided options p (some l) _
      ((Scalar.primitive p).apply true (l.keywords options.javaTypeHints))
    rw [hkeywords]
    exact ⟨rfl, l.attr?_details_format options.javaTypeHints,
      l.attr?_details_javaType options.javaTypeHints⟩

/-- The doc and the custom properties of an object leave the type alone. -/
theorem attr?_annotate_type (attributes keywords : Json.Entries) :
    (annotate attributes keywords).attr? "type" = keywords.attr? "type" := by
  rw [attr?_annotate, customProperty?_of_reserved (by decide), Option.none_or,
    attr?_describe_of_ne (by decide)]

/-- A doc leaves the type, the format and the class alone. -/
theorem Decided.annotate {l : Option LogicalType} {written : SchemaType → Json}
    {keywords : Json.Entries} (h : Decided options p l written keywords)
    (hnone : customProperties attributes = []) :
    Decided options p l written (annotate attributes keywords) := by
  have hattr : ∀ name : Text, Text.ofString "description" ≠ name →
      (Keywords.annotate attributes keywords).attr? name = keywords.attr? name := by
    intro name hname
    rw [attr?_annotate, customProperty?_of_nil hnone, Option.none_or, attr?_describe_of_ne hname]
  exact ⟨(hattr _ (by decide)).trans h.type, (hattr _ (by decide)).trans h.format,
    (hattr _ (by decide)).trans h.javaType⟩

/-! ### The doc and the custom properties of an object -/

/-- Some keywords carry the custom properties of an object as they are, and its doc as the
description unless a custom property takes its place. -/
structure Carries (attributes keywords : Json.Entries) : Prop where
  custom : ∀ name value, customProperty? name attributes = some value →
    keywords.attr? name = some value
  doc : ∀ doc, attributes.attr? "doc" = some doc → customProperty? "description" attributes = none →
    keywords.attr? "description" = some doc

/-- What an object says is kept in some keywords: they carry it themselves, or the other branch of a
choice beside null does. -/
def Keeps (attributes keywords : Json.Entries) : Prop :=
  Carries attributes keywords
    ∨ ∃ branch : Json.Entries, keywords.attr? "oneOf" = some (.arr [nullSchema, .obj branch])
      ∧ Carries attributes branch

/-- An object has a doc, or a custom property that no logical type could decide. -/
def Speaks (attributes : Json.Entries) : Prop :=
  attributes.attr? "doc" ≠ none ∨ ∃ name ∉ decided, customProperty? name attributes ≠ none

theorem carries_annotate (attributes keywords : Json.Entries) :
    Carries attributes (annotate attributes keywords) where
  custom name value h := by rw [attr?_annotate, h, Option.some_or]
  doc doc h hnone := by
    rw [attr?_annotate, hnone, Option.none_or]
    exact attr?_describe_description h

/-- Keywords that a logical type decides keep nothing of what an object says. -/
theorem not_keeps_of_decided {keywords : Json.Entries} (hs : Speaks attributes)
    (hk : keywords.KeysAmong decided) : ¬Keeps attributes keywords := by
  rintro (hcarries | ⟨branch, hone, -⟩)
  · have hcustom : ∀ name ∉ decided, customProperty? name attributes = none := by
      intro name hname
      cases hc : customProperty? name attributes with
      | none => rfl
      | some value => cases (hcarries.custom name value hc).symm.trans (hk.attr?_eq_none hname)
    rcases hs with hdoc | ⟨name, hname, hc⟩
    · obtain ⟨doc, hdoc⟩ := Option.ne_none_iff_exists'.1 hdoc
      have hkept := hcarries.doc doc hdoc (hcustom _ (by decide))
      cases hkept.symm.trans (hk.attr?_eq_none (by decide))
    · exact hc (hcustom name hname)
  · cases hone.symm.trans (hk.attr?_eq_none (by decide))

end Keywords

namespace Conversion

open Schema Step Keywords

/-! ### Scalars that may be null -/

variable {member : Json} {members : List Json} {enclosing : Text} {c : Context} {p : Primitive}

/-- A node of a primitive kind goes by the logical type that its origin states. -/
theorem outcome_of_primitive_origin (options : Options) (enclosing : Text) (c : Context) {t : Text}
    (hk : kind member = .ok (.str t)) (hp : Primitive.ofText? t = some p) :
    ∃ keywords : Json.Entries, outcome (node options member enclosing) c = (.ok keywords, c)
      ∧ keywords.attr? "type" =
          some (.str (Scalar.decidedType p
            (statedLogicalType? (origin options.flattenNullableUnions member))).text)
      ∧ (Uncustomised (origin options.flattenNullableUnions member) →
          Decided options p (statedLogicalType? (origin options.flattenNullableUnions member))
            (.str ·.text) keywords) := by
  have hnode : node options member enclosing = _ := node_origin options.setup member enclosing
  rw [hnode]
  show ∃ keywords, outcome (node options (origin options.flattenNullableUnions member) enclosing) c
    = _ ∧ _
  rcases origin_of_primitive_kind options.flattenNullableUnions hk hp with
    ho | ⟨attributes, ho, hs⟩ <;> rw [ho]
  · have hs : shape (.str t) = .name t := rfl
    have hdecided := decided_of_scalar options [] p
    rw [node_of_name hs, outcome_typeName, hp]
    exact ⟨_, rfl, hdecided.type, fun _ => hdecided⟩
  · have hdecided := decided_of_scalar options attributes p
    rw [node_of_primitive hs]
    exact ⟨_, rfl, (attr?_annotate_type _ _).trans hdecided.type, fun hbare => hdecided.annotate hbare⟩

/-- A list of null and one type is that of null and another one if the types are the same. -/
theorem same_type_iff {a b : SchemaType} :
    (∃ type : Json, some (Json.str a.text) = some type
        ∧ some (nullableScalar.typePair b) = some (.arr ["null", type])) ↔ b = a := by
  constructor
  · rintro ⟨type, ha, hb⟩
    cases ha
    have hitems := Json.arr.inj (Option.some.inj hb)
    have htext : Json.str b.text = Json.str a.text := by simpa using hitems
    exact SchemaType.text_injective (Json.str.inj htext)
  · rintro rfl
    exact ⟨_, rfl, rfl⟩

theorem map_str_inj {a b : Option Text} : a.map Json.str = b.map Json.str ↔ a = b :=
  (Option.map_injective fun _ _ => Json.str.inj).eq_iff

/-- The classes are the same if there are none or the logical types name the same. -/
theorem same_class_iff {hints : Bool} {a b : Option LogicalType} :
    ((if hints then a.map (Json.str ·.javaType) else none)
        = if hints then b.map (Json.str ·.javaType) else none) ↔
      hints = false ∨ b.map LogicalType.javaType = a.map LogicalType.javaType := by
  have hmap : ∀ l : Option LogicalType,
      l.map (Json.str ·.javaType) = (l.map LogicalType.javaType).map Json.str := by
    intro l
    rw [Option.map_map]
    rfl
  cases hints with
  | false => simp
  | true =>
    rw [if_pos rfl, if_pos rfl, hmap, hmap, map_str_inj]
    simp [eq_comm]

/-- The origin of a node of a primitive kind that is no wrapper is the node. -/
theorem origin_of_unwrapped {flatten : Bool} {t : Text} (hk : kind member = .ok (.str t))
    (hp : Primitive.ofText? t = some p) (hw : ∀ inner, shape member ≠ .wrapper inner) :
    origin flatten member = member := by
  refine origin_of_other hw fun members hs => ?_
  rw [eq_arr_of_shape hs, kind_arr] at hk
  cases hk
  cases hp

/-- **A nullable scalar is the same in both modes as far as its logical type is seen.**  The list of
two types is that of null and of the type that the flattened union has, exactly where the logical
type that the member states itself and the one of its origin decide the same type; for the format
and for the class the same holds, unless custom properties of the origin take their places.  A member
that is no wrapper is its own origin. -/
theorem nullable_scalars_agree (options : Options) {setup : Setup} (hc : c.Reachable setup)
    {k : Json} (hu : unionForm members = .nullable member)
    (hk : c.resolveKind member enclosing = .ok k) (hp : primitiveOfKind? k = some p) :
    let flattened := (options.setToggle .flattenNullableUnions true).setup
    let kept := (options.setToggle .flattenNullableUnions false).setup
    let own := statedLogicalType? member
    let inner := statedLogicalType? (origin true member)
    ∃ flat plain : Json.Entries,
      outcome (node flattened (.arr members) enclosing) c = (.ok flat, c)
        ∧ outcome (node kept (.arr members) enclosing) c = (.ok plain, c)
        ∧ ((∃ type, flat.attr? "type" = some type
              ∧ plain.attr? "type" = some (.arr ["null", type])) ↔
            Scalar.decidedType p own = Scalar.decidedType p inner)
        ∧ (Uncustomised (origin true member) →
            (flat.attr? "format" = plain.attr? "format" ↔
              own.bind LogicalType.format? = inner.bind LogicalType.format?)
            ∧ (flat.attr? "javaType" = plain.attr? "javaType" ↔
              options.javaTypeHints = false
                ∨ own.map LogicalType.javaType = inner.map LogicalType.javaType))
        ∧ ((∀ wrapped, shape member ≠ .wrapper wrapped) → own = inner) := by
  intro flattened kept own inner
  obtain ⟨t, hkind, ht⟩ := kind_of_resolveKind hc.sound hk hp
  have hs : shape (.arr members) = .union members := rfl
  obtain ⟨flat, hflat, htype, hdecided⟩ := outcome_of_primitive_origin
    (options.setToggle .flattenNullableUnions true) enclosing c hkind ht
  have hplain := decided_of_nullableScalar kept.options member p
  refine ⟨flat, nullableScalar kept.options member p, ?_, ?_, ?_, fun hbare => ?_, fun hw => ?_⟩
  · rw [node_of_union hs, union_of_flattened hu rfl]
    exact hflat
  · rw [node_of_union hs, outcome_union_of_nullable hu rfl, hk]
    simp only [hp]
  · rw [htype, hplain.type]
    exact same_type_iff
  · obtain ⟨-, hformat, hjava⟩ := hdecided hbare
    rw [hformat, hjava, hplain.format, hplain.javaType]
    exact ⟨eq_comm.trans map_str_inj, same_class_iff⟩
  · show statedLogicalType? member = statedLogicalType? (origin true member)
    rw [origin_of_unwrapped hkind ht hw]

/-- Octets that stand for decimal numbers. -/
def decimal : Json :=
  .obj [(.text "type", "bytes"), (.text "logicalType", "decimal")]

theorem nullable_scalars_agree_decimal :
    ∃ flat plain : Json.Entries,
      outcome (node (Options.strict.setToggle .flattenNullableUnions true).setup
          (.arr ["null", decimal]) []) Context.empty = (.ok flat, Context.empty)
        ∧ outcome (node (Options.strict.setToggle .flattenNullableUnions false).setup
          (.arr ["null", decimal]) []) Context.empty = (.ok plain, Context.empty)
        ∧ (∃ type, flat.attr? "type" = some type
            ∧ plain.attr? "type" = some (.arr ["null", type]))
        ∧ flat.attr? "format" = plain.attr? "format" := by
  have hreach : Context.empty.Reachable Options.strict := ⟨[], rfl⟩
  have hu : unionForm ["null", decimal] = .nullable decimal := by with_unfolding_all rfl
  have hk : Context.empty.resolveKind decimal [] = .ok "bytes" := by with_unfolding_all rfl
  have ho : origin true decimal = decimal := by with_unfolding_all rfl
  have hbare : Uncustomised (origin true decimal) := by
    rw [ho]
    with_unfolding_all rfl
  obtain ⟨flat, plain, hflat, hplain, htype, hdetails, hown⟩ :=
    nullable_scalars_agree Options.strict hreach hu hk (p := .bytes) (by with_unfolding_all rfl)
  have hsame := hown fun wrapped hs => by cases hs
  exact ⟨flat, plain, hflat, hplain, htype.2 (by rw [hsame]), (hdetails hbare).1.2 (by rw [hsame])⟩

/-- With the decimal numbers in a wrapper the modes part: the flattened union is of numbers, the list
of two types of texts. -/
theorem nullable_scalars_part :
    ∃ flat plain : Json.Entries,
      outcome (node (Options.strict.setToggle .flattenNullableUnions true).setup
          (.arr ["null", .obj [(.text "type", decimal)]]) []) Context.empty
          = (.ok flat, Context.empty)
        ∧ outcome (node (Options.strict.setToggle .flattenNullableUnions false).setup
          (.arr ["null", .obj [(.text "type", decimal)]]) []) Context.empty
          = (.ok plain, Context.empty)
        ∧ flat.attr? "type" = some "number"
        ∧ plain.attr? "type" = some (.arr ["null", "string"])
        ∧ ¬∃ type, flat.attr? "type" = some type
            ∧ plain.attr? "type" = some (.arr ["null", type]) := by
  have hflat : Json.Entries.attr? "type" [(.text "type", "number")] = some "number" := by
    with_unfolding_all rfl
  have hplain : Json.Entries.attr? "type" [(.text "type", .arr ["null", "string"])]
      = some (.arr ["null", "string"]) := by
    with_unfolding_all rfl
  refine ⟨[(.text "type", "number")], [(.text "type", .arr ["null", "string"])],
    by with_unfolding_all rfl, by with_unfolding_all rfl, hflat, hplain, ?_⟩
  rintro ⟨type, htype, hpair⟩
  rw [hflat] at htype
  rw [hplain] at hpair
  cases htype
  have hitems : Json.str "string" = Json.str "number" := by
    simpa using Json.arr.inj (Option.some.inj hpair)
  exact absurd (Json.str.inj hitems) (by decide)

/-! ### What a union keeps -/

/-- **A nullable union keeps what its member says unless it becomes a list of two types.**  The member
is an object whose type is a text, and no record that has been entered before.  If the union is
flattened, or the type is no primitive one, the doc and the custom properties of the member are on the
node or on the other branch of the choice; the list of two types keeps none of them that a logical
type could not have decided. -/
theorem keeps_of_union {setup other : Setup} {attributes es : Json.Entries} {t : Text} {c' : Context}
    (hc : c.Reachable other) (hu : unionForm members = .nullable (.obj attributes))
    (ht : attributes.attr? "type" = some (.str t))
    (hnew : ∀ name qualified, shape (.obj attributes) = .record name attributes →
      Name.ofNamed name attributes enclosing = .ok qualified → qualified ∉ c.seen)
    (h : outcome (node setup (.arr members) enclosing) c = (.ok es, c')) :
    (setup.options.flattenNullableUnions = true ∨ Primitive.ofText? t = none →
        Keeps attributes es)
      ∧ (Speaks attributes → Keeps attributes es →
        setup.options.flattenNullableUnions = true ∨ Primitive.ofText? t = none) := by
  have hkind : kind (.obj attributes) = .ok (.str t) := by
    rw [kind_of_type ht, kind_of_plain (by trivial)]
  have hs : shape (.arr members) = .union members := rfl
  rw [node_of_union hs] at h
  cases hf : setup.options.flattenNullableUnions with
  | true =>
    rw [union_of_flattened hu hf] at h
    obtain ⟨keywords, rfl⟩ := annotated_of_type ht hnew h
    exact ⟨fun _ => .inl (carries_annotate _ _), fun _ _ => .inl rfl⟩
  | false =>
    rw [outcome_union_of_nullable hu hf] at h
    cases hr : c.resolveKind (.obj attributes) enclosing with
    | error fault =>
      rw [hr] at h
      cases h
    | ok k =>
      rw [hr] at h
      dsimp only at h
      cases hp : primitiveOfKind? k with
      | some p =>
        rw [hp] at h
        cases h
        have hprimitive : Primitive.ofText? t = some p := by
          obtain ⟨t', hk', hp'⟩ := kind_of_resolveKind hc.sound hr hp
          rw [hkind] at hk'
          cases hk'
          exact hp'
        have hlost : ¬(false = true ∨ Primitive.ofText? t = none) := by
          rw [hprimitive]
          simp
        refine ⟨fun hkept => absurd hkept hlost, fun hspeaks hkeeps => ?_⟩
        exact absurd hkeeps (not_keeps_of_decided hspeaks (decided_nullableScalar _ _ _))
      | none =>
        rw [hp] at h
        rcases hnode : outcome (node setup (.obj attributes) enclosing) c with ⟨result, c₁⟩
        rw [hnode] at h
        cases result with
        | error fault => cases h
        | ok branch =>
          cases h
          obtain ⟨keywords, rfl⟩ := annotated_of_type ht hnew hnode
          have hplain : Primitive.ofText? t = none := not_primitive_of_resolveKind hkind hr hp
          exact ⟨fun _ => .inr ⟨_, Json.Entries.attr?_put_self _ _ [], carries_annotate _ _⟩,
            fun _ _ => .inr hplain⟩

/-- The attributes of a list of texts with a doc and an owner. -/
def ownedTexts : Json.Entries :=
  [(.text "type", "array"), (.text "items", "string"), (.text "doc", "names"),
    (.text "owner", "me")]

theorem keeps_of_union_ownedTexts :
    ∃ (es : Json.Entries) (c : Context),
      outcome (node Options.strict (.arr ["null", .obj ownedTexts]) []) Context.empty = (.ok es, c)
        ∧ Keeps ownedTexts es
        ∧ customProperty? "owner" ownedTexts = some "me" := by
  have hreach : Context.empty.Reachable Options.strict := ⟨[], rfl⟩
  have hu : unionForm ["null", .obj ownedTexts] = .nullable (.obj ownedTexts) := by
    with_unfolding_all rfl
  have ht : ownedTexts.attr? "type" = some (.str "array") := by with_unfolding_all rfl
  have hok : (outcome (node Options.strict (.arr ["null", .obj ownedTexts]) [])
      Context.empty).1.toBool = true := by
    decide +kernel
  rcases hrun : outcome (node Options.strict (.arr ["null", .obj ownedTexts]) []) Context.empty
    with ⟨_ | es, c⟩
  · rw [hrun] at hok
    cases hok
  · have hkeeps := keeps_of_union hreach hu ht (fun name qualified hs => by cases hs) hrun
    exact ⟨es, c, rfl, hkeeps.1 (.inr (by decide)), by with_unfolding_all rfl⟩

/-- The attributes of texts with a doc and an owner. -/
def ownedText : Json.Entries :=
  [(.text "type", "string"), (.text "doc", "name"), (.text "owner", "me")]

/-- Of texts with a doc and an owner that may be null, the strict preset keeps the type alone. -/
theorem speech_lost :
    ∃ es : Json.Entries,
      outcome (node Options.strict (.arr ["null", .obj ownedText]) []) Context.empty
          = (.ok es, Context.empty)
        ∧ es.keys = [.text "type"]
        ∧ ¬Keeps ownedText es := by
  have hspeaks : Speaks ownedText := by
    refine .inl fun hnone => ?_
    have hdoc : ownedText.attr? "doc" = some "name" := by with_unfolding_all rfl
    cases hdoc.symm.trans hnone
  refine ⟨nullableScalar Options.strict (.obj ownedText) .string, by with_unfolding_all rfl,
    by with_unfolding_all rfl, not_keeps_of_decided hspeaks (decided_nullableScalar _ _ _)⟩

end Conversion

end AvroJsonSchema
