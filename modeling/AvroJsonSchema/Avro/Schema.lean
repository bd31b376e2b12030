import AvroJsonSchema.Avro.Name
import AvroJsonSchema.Avro.LogicalType

/-!
# Questions about a schema

What can be said of a schema without converting it: its attributes, its kind and whether it admits
null.

* **`Schema.require`**: an attribute that has to be there.
* **`Schema.kind`**: the kind of a schema, through types that are schemas.
* **`Schema.isNullable`**: whether a schema admits null.
* **`Schema.customProperties`**: the attributes that have no meaning in Avro.
* **`Schema.parse`**: the schema of a text.
-/

namespace AvroJsonSchema

namespace Schema

/-- What a message calls the type of an object. -/
def typeLabel (attributes : Json.Entries) : Text :=
  match attributes.attr? "type" with
  | some (.str t) => t
  | _ => "schema"

/-- The fault of a missing attribute; the name of the object tells the place if nothing else
does. -/
def missing (attributes : Json.Entries) (wanted place : Text) : SchemaFault :=
  .missingAttribute (typeLabel attributes) wanted
    (if place.isEmpty then (attributes.attr? "name").getD .null else .str place)

/-- An attribute that has to be there. -/
def require (attributes : Json.Entries) (wanted place : Text) : Except Fault Json :=
  match attributes.attr? wanted with
  | some j => .ok j
  | none => .error (missing attributes wanted place)

/-- The kind of a schema: union for a list, the kind of its type for an object, and any other
value as it stands. -/
def kind (schema : Json) : Except Fault Json :=
  match schema with
  | .arr _ => .ok (.str "union")
  | .obj attributes =>
    match h : Json.Entries.attr? "type" attributes with
    | none => .error (SchemaFault.untypedObject attributes)
    | some inner =>
      have := Json.size_lt_of_attr? h
      kind inner
  | j => .ok j
termination_by schema.size

/-- Whether a kind is the one of null. -/
def isNullKind : Json → Bool
  | .str t => t = Primitive.null.text
  | _ => false

/-- Whether some member of a union is null; the members after the first such one are not looked
at. -/
def anyNull : List Json → Except Fault Bool
  | [] => .ok false
  | j :: js => do
    if isNullKind (← kind j) then pure true else anyNull js

/-- Whether a schema admits null: it is null or a union with a null member. -/
def isNullable (schema : Json) : Except Fault Bool :=
  match schema with
  | .arr members => anyNull members
  | .obj attributes =>
    match h : Json.Entries.attr? "type" attributes with
    | some (.arr members) => anyNull members
    | some (.obj inner) =>
      have := Json.size_lt_of_attr? h
      isNullable (.obj inner)
    | _ => (kind schema).map isNullKind
  | j => .ok (isNullKind j)
termination_by schema.size

/-- The attributes that Avro gives a meaning. -/
def reservedAttributes : List Text :=
  ["type", "name", "namespace", "fields", "doc", "aliases", "symbols", "items", "values", "size",
    "default"]

/-- The attributes that never reach a document. -/
def internalAttributes : List Text :=
  ["logicalType", "precision", "scale", "connect.parameters"]

/-- Whether an attribute is carried over into the document. -/
def isCustom : Json.Key → Bool
  | .text t => !reservedAttributes.contains t && !internalAttributes.contains t
  | _ => true

/-- The attributes that are carried over, in order. -/
def customProperties (attributes : Json.Entries) : Json.Entries :=
  attributes.filter (fun e => isCustom e.1)

/-- The recognised logical type of an object. -/
def logicalType? (attributes : Json.Entries) : Option LogicalType :=
  match attributes.attr? "logicalType" with
  | some (.str tag) => LogicalType.ofText? tag
  | _ => none

/-- The schema of a text, which has to be a name, an object or a list. -/
def parse (t : Text) : Except Fault Json :=
  match Json.read t with
  | .error (.malformed problem line column) =>
    .error (SchemaFault.malformed problem line column)
  | .error (.tooManyDigits count) => .error (.tooManyDigits count)
  | .ok (.str name) => .ok (.str name)
  | .ok (.arr members) => .ok (.arr members)
  | .ok (.obj attributes) => .ok (.obj attributes)
  | .ok j => .error (SchemaFault.notASchema j)

end Schema

end AvroJsonSchema
