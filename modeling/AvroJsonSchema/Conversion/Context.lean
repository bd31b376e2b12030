import AvroJsonSchema.Avro.Shape
import AvroJsonSchema.Options

/-!
# The state of a conversion

A conversion goes through a schema from front to back.  It keeps the records it has entered, the
finished conversions of those it has left, and every named type it has met.  A failing step leaves
the state as it is at the fault.

* **`Context`**: the three tables of a conversion.
* **`Step`**: a part of a conversion, which may fail.
* **`Context.resolve`**: the defined type that a name means.
* **`Context.resolveKind`**: the kind of a schema, through references.
-/

namespace AvroJsonSchema

/-- What a conversion has met so far. -/
structure Context where
  /-- The full names of the records that have been entered, in order. -/
  seen : List Text
  /-- The finished conversions of records by full name, in order of completion. -/
  definitions : Table Text Json.Entries
  /-- The definitions of named types by full name, in order. -/
  named : Table Text Json.Entries

namespace Context

/-- Nothing met yet. -/
def empty : Context := ⟨[], [], []⟩

/-- The context after a named type has been met. -/
def addNamed (name : Text) (attributes : Json.Entries) (context : Context) : Context :=
  { context with named := context.named.set name attributes }

/-- The context after a record has been entered. -/
def enter (name : Text) (attributes : Json.Entries) (context : Context) : Context :=
  { context.addNamed name attributes with seen := context.seen ++ [name] }

/-- The context after a record has been left. -/
def define (name : Text) (schema : Json.Entries) (context : Context) : Context :=
  { context with definitions := context.definitions.set name schema }

/-- The full names that a name may mean within a namespace, in the order they are tried. -/
def candidates (name enclosing : Text) : List Text :=
  Name.qualify name enclosing
    :: (if name.isDotted || enclosing.isEmpty then [] else [name])

/-- The full name of the defined type that a name means within a namespace. -/
def resolve (context : Context) (name enclosing : Text) : Except Fault Text :=
  match (candidates name enclosing).find? (context.named.has ·) with
  | some qualified => .ok qualified
  | none => .error (SchemaFault.undefinedName name enclosing)

/-- The kind of a schema within a namespace; the name of a defined type stands for the kind of its
definition. -/
def resolveKind (context : Context) (schema : Json) (enclosing : Text) : Except Fault Json := do
  match ← Schema.kind schema with
  | .str t =>
    if t = Text.ofString "union" then pure (.str t)
    else
      match TypeName.ofText t with
      | .defined name =>
        let qualified ← context.resolve name enclosing
        Schema.kind (.obj ((context.named.get? qualified).getD []))
      | _ => pure (.str t)
  | j => .error (.unusableReference j)

end Context

/-- A part of a conversion: it changes the context, and yields a value unless it fails. -/
abbrev Step := ExceptT Fault (StateM Context)

namespace Step

/-- A part that looks at no context. -/
def ofExcept {α : Type} (x : Except Fault α) : Step α :=
  match x with
  | .ok a => pure a
  | .error fault => throw fault

/-- A part that only looks at the context. -/
def inspect {α : Type} (look : Context → Except Fault α) : Step α := do
  ofExcept (look (← get))

end Step

end AvroJsonSchema
