import AvroJsonSchema.Text.Basic

/-!
# Type names

A type name is one of the eight primitive types, one of the six complex ones, or the name of a
type that the schema defines.

* **`Primitive`**, **`Complex`**: the built-in types.  **`TypeName.ofText`**: what a text names.
* **`SchemaType`**: the seven types of JSON Schema.
* **`Primitive.schemaType`**: the JSON Schema type of a primitive type.
-/

namespace AvroJsonSchema

/-- The types of JSON Schema. -/
inductive SchemaType where
  | string | integer | number | boolean | null | object | array
deriving DecidableEq

/-- The text of a JSON Schema type. -/
def SchemaType.text : SchemaType → Text
  | .string => "string"
  | .integer => "integer"
  | .number => "number"
  | .boolean => "boolean"
  | .null => "null"
  | .object => "object"
  | .array => "array"

/-- The primitive types of Avro. -/
inductive Primitive where
  | null | boolean | int | long | float | double | bytes | string
deriving DecidableEq

namespace Primitive

/-- The text of a primitive type. -/
def text : Primitive → Text
  | .null => "null"
  | .boolean => "boolean"
  | .int => "int"
  | .long => "long"
  | .float => "float"
  | .double => "double"
  | .bytes => "bytes"
  | .string => "string"

/-- Every primitive type. -/
def all : List Primitive :=
  [.null, .boolean, .int, .long, .float, .double, .bytes, .string]

/-- The primitive type that a text names. -/
def ofText? (t : Text) : Option Primitive :=
  all.find? (·.text = t)

/-- The JSON Schema type of the values of a primitive type. -/
def schemaType : Primitive → SchemaType
  | .null => .null
  | .boolean => .boolean
  | .int => .integer
  | .long => .integer
  | .float => .number
  | .double => .number
  | .bytes => .string
  | .string => .string

theorem text_of_ofText? {t : Text} {p : Primitive} (h : ofText? t = some p) : p.text = t := by
  simpa using List.find?_some h

theorem ofText?_text (p : Primitive) : ofText? p.text = some p := by
  cases p <;> decide

end Primitive

/-- The complex types of Avro that are written as an object. -/
inductive Complex where
  | record | error | enum | fixed | array | map
deriving DecidableEq

namespace Complex

/-- The text of a complex type. -/
def text : Complex → Text
  | .record => "record"
  | .error => "error"
  | .enum => "enum"
  | .fixed => "fixed"
  | .array => "array"
  | .map => "map"

/-- Every complex type. -/
def all : List Complex :=
  [.record, .error, .enum, .fixed, .array, .map]

/-- The complex type that a text names. -/
def ofText? (t : Text) : Option Complex :=
  all.find? (·.text = t)

theorem text_of_ofText? {t : Text} {c : Complex} (h : ofText? t = some c) : c.text = t := by
  simpa using List.find?_some h

theorem ofText?_text (c : Complex) : ofText? c.text = some c := by
  cases c <;> decide

end Complex

/-- What the text of a type names. -/
inductive TypeName where
  | primitive (p : Primitive)
  | complex (c : Complex)
  /-- A type that the schema defines. -/
  | defined (name : Text)
deriving DecidableEq

/-- What a text names. -/
def TypeName.ofText (t : Text) : TypeName :=
  match Primitive.ofText? t with
  | some p => .primitive p
  | none =>
    match Complex.ofText? t with
    | some c => .complex c
    | none => .defined t

end AvroJsonSchema
