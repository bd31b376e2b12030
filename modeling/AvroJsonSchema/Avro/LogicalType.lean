import AvroJsonSchema.Avro.TypeName
import AvroJsonSchema.Json.Basic

/-!
# Logical types

A logical type that is recognised decides the type and the format of the values that are written
under it, and names a class for code generators.

* **`LogicalType`**: the recognised logical types.  **`LogicalType.ofText?`**: what a tag names.
* **`LogicalType.keywords`**: the keywords that a logical type decides.
-/

namespace AvroJsonSchema

/-- The recognised logical types. -/
inductive LogicalType where
  | decimal | timestampMillis | timestampMicros | date | timeMillis | timeMicros | uuid | duration
deriving DecidableEq

namespace LogicalType

/-- The tag of a logical type. -/
def text : LogicalType → Text
  | .decimal => "decimal"
  | .timestampMillis => "timestamp-millis"
  | .timestampMicros => "timestamp-micros"
  | .date => "date"
  | .timeMillis => "time-millis"
  | .timeMicros => "time-micros"
  | .uuid => "uuid"
  | .duration => "duration"

/-- Every logical type. -/
def all : List LogicalType :=
  [.decimal, .timestampMillis, .timestampMicros, .date, .timeMillis, .timeMicros, .uuid, .duration]

/-- The logical type that a tag names. -/
def ofText? (t : Text) : Option LogicalType :=
  all.find? (·.text = t)

/-- The JSON Schema type of the values. -/
def schemaType : LogicalType → SchemaType
  | .decimal => .number
  | .timestampMillis => .integer
  | .timestampMicros => .integer
  | _ => .string

/-- The format of the values, if there is one. -/
def format? : LogicalType → Option Text
  | .decimal => none
  | .timestampMillis => some "utc-millisec"
  | .timestampMicros => some "utc-millisec"
  | .date => some "date"
  | .timeMillis => some "time"
  | .timeMicros => some "time"
  | .uuid => some "uuid"
  | .duration => some "duration"

/-- The class that code generators use for the values. -/
def javaType : LogicalType → Text
  | .decimal => "java.math.BigDecimal"
  | .timestampMillis => "java.time.Instant"
  | .timestampMicros => "java.time.Instant"
  | .date => "java.time.LocalDate"
  | .timeMillis => "java.time.LocalTime"
  | .timeMicros => "java.time.LocalTime"
  | .uuid => "java.util.UUID"
  | .duration => "java.time.Duration"

/-- The keywords beside the type: the format, and the class if hints are asked for. -/
def details (l : LogicalType) (hints : Bool) : Json.Entries :=
  (match l.format? with
    | some format => [(.text "format", .str format)]
    | none => [])
    ++ (if hints then [(.text "javaType", .str l.javaType)] else [])

/-- The keywords that a logical type decides, in order. -/
def keywords (l : LogicalType) (hints : Bool) : Json.Entries :=
  (.text "type", .str l.schemaType.text) :: l.details hints

end LogicalType

end AvroJsonSchema
