import AvroJsonSchema.Conversion.Context

/-!
# Keywords of a converted node

The parts of a conversion that need neither the nodes below nor the context: the keywords that a
logical type, a primitive type or an enum decides, the doc and the custom properties of an object,
and the frame of a record.

* **`Keywords.ofLogicalType`**: what a recognised logical type decides.
* **`Scalar.apply`**: the type of a primitive or fixed value, unless a logical type has claimed it.
* **`Keywords.annotate`**: the doc and the custom properties of an object.
* **`Keywords.decorate`**: the doc and the default of a field.
* **`Keywords.recordFrame`**: the keywords of a record around its converted fields.
-/

namespace AvroJsonSchema

/-- The types whose values are scalars: the primitive ones and fixed. -/
inductive Scalar where
  | primitive (p : Primitive)
  | fixed
deriving DecidableEq

namespace Scalar

/-- Whether the values are octets. -/
def isBinary : Scalar → Bool
  | .primitive .bytes => true
  | .fixed => true
  | _ => false

/-- Puts the type of a scalar among some keywords.  Octets are a text in base 64 unless a logical
type has claimed them; any other type is put in only where there is none. -/
def apply (scalar : Scalar) (claimed : Bool) (schema : Json.Entries) : Json.Entries :=
  match scalar with
  | .primitive p =>
    if scalar.isBinary then binary
    else schema.putIfAbsent "type" p.schemaType.text
  | .fixed => binary
where
  /-- The keywords with those of a text in base 64. -/
  binary : Json.Entries :=
    if claimed then schema
    else (schema.put "type" "string").put "contentEncoding" "base64"

/-- The scalar of a type name. -/
def ofText? (t : Text) : Option Scalar :=
  match TypeName.ofText t with
  | .primitive p => some (.primitive p)
  | .complex .fixed => some .fixed
  | _ => none

/-- The scalar of a kind. -/
def ofKind? : Json → Option Scalar
  | .str t => ofText? t
  | _ => none

end Scalar

/-- The text of the JSON Schema type that a kind is written as. -/
def SchemaType.ofKind (kind : Json) : Except Fault Text :=
  match kind with
  | .str t =>
    match Primitive.ofText? t with
    | some p => .ok p.schemaType.text
    | none => .error (.notPrimitive kind)
  | .arr _ => .error (.unusableKey kind)
  | .obj _ => .error (.unusableKey kind)
  | _ => .error (.notPrimitive kind)

/-- Puts the type of a kind among some keywords.  A kind that is no scalar is refused unless there
is a type already. -/
def Scalar.applyKind (kind : Json) (claimed : Bool) (schema : Json.Entries) :
    Except Fault Json.Entries :=
  match ofKind? kind with
  | some scalar => .ok (scalar.apply claimed schema)
  | none =>
    if (schema.attr? "type").isSome then .ok schema
    else (SchemaType.ofKind kind).map fun type => schema.put "type" type

namespace Keywords

/-- The keywords that the logical type of an object decides; none if it has none. -/
def ofLogicalType (options : Options) (attributes : Json.Entries) : Json.Entries :=
  match Schema.logicalType? attributes with
  | some l => l.keywords options.javaTypeHints
  | none => []

/-- The keywords of a logical type with a type where it decides none. -/
def withType (options : Options) (attributes : Json.Entries) (type : SchemaType) : Json.Entries :=
  (ofLogicalType options attributes).putIfAbsent "type" type.text

/-- The keywords of an object of a scalar type. -/
def ofScalar (options : Options) (attributes : Json.Entries) (scalar : Scalar) : Json.Entries :=
  scalar.apply (Schema.logicalType? attributes).isSome (ofLogicalType options attributes)

/-- Adds the doc of an object as the description. -/
def describe (attributes schema : Json.Entries) : Json.Entries :=
  match attributes.attr? "doc" with
  | some doc => schema.put "description" doc
  | none => schema

/-- Adds the doc and the custom properties of an object. -/
def annotate (attributes schema : Json.Entries) : Json.Entries :=
  (describe attributes schema).merge (Schema.customProperties attributes)

/-- Adds the doc and the default of a field to its property; the default comes last. -/
def decorate (field property : Json.Entries) : Json.Entries :=
  let described := describe field property
  match field.attr? "default" with
  | some value => Json.Entries.put "default" value (described.erase (.text "default"))
  | none => described

/-- The symbols of an enum. -/
def symbols? : Json → Option (List Json)
  | .arr items => if items.all isText then some items else none
  | _ => none
where
  /-- Whether a symbol is a text. -/
  isText : Json → Bool
    | .str _ => true
    | _ => false

/-- A reference to a record. -/
def reference (draft : Draft) (name : Text) : Json.Entries :=
  [(.text "$ref", .str (draft.referenceRoot ++ name))]

/-- The keywords of a record around its converted fields. -/
def recordFrame (options : Options) (name : Text) (attributes : Json.Entries)
    (properties : Json.Entries) (required : List Json) : Json.Entries :=
  let schema := withType options attributes .object
  let schema := schema.put "title" (Name.localOf name)
  let schema := schema.put "properties" (.obj properties)
  let schema :=
    if options.omitEmptyRequired && required.isEmpty then schema
    else schema.put "required" (.arr required)
  if options.additionalPropertiesFalse then schema.put "additionalProperties" (.bool false)
  else schema

/-- A union of null and a scalar as a list of two types.  A logical type of the scalar takes the
place of the type that it would have. -/
def nullableScalar (options : Options) (member : Json) (p : Primitive) : Json.Entries :=
  let logicalType? :=
    match member with
    | .obj attributes => Schema.logicalType? attributes
    | _ => none
  match logicalType? with
  | some l => (.text "type", typePair l.schemaType) :: l.details options.javaTypeHints
  | none => [(.text "type", typePair p.schemaType)]
where
  /-- Null or another type. -/
  typePair (type : SchemaType) : Json :=
    .arr ["null", type.text]

/-- A choice between some schemas. -/
def oneOf (branches : List Json) : Json.Entries :=
  [(.text "oneOf", .arr branches)]

/-- The schema of null alone. -/
def nullSchema : Json :=
  .obj [(.text "type", "null")]

end Keywords

end AvroJsonSchema
