import AvroJsonSchema.Conversion.Node

/-!
# Documents

A document is a converted schema under a header: the address of the draft's meta-schema and, if
the conversion has finished any record, the definitions table.  A keyword of the converted schema
that has the name of a header keyword takes its place.

* **`Document.run`**: a conversion from nothing, with the context it ends in.
* **`Document.ofSchema`**: the document of a schema.
* **`Document.ofText`**: the text of the document of a schema text.
* **`Document.unionMembers`**: the members of any value that is taken for a union.
-/

namespace AvroJsonSchema

namespace Document

/-- The definitions table as a value. -/
def definitionsTable (context : Context) : Json :=
  .obj (context.definitions.map fun e => (.text e.1, .obj e.2))

/-- The table of the named types as a value. -/
def namedTable (context : Context) : Json :=
  .obj (context.named.map fun e => (.text e.1, .obj e.2))

/-- What stands before the converted schema. -/
def header (draft : Draft) (context : Context) : Json.Entries :=
  (.text "$schema", .str draft.schemaUrl)
    :: (if context.definitions.isEmpty then []
      else [(.text draft.definitionsKeyword, definitionsTable context)])

/-- The conversion of a whole schema and the context it ends in. -/
def run (setup : Setup) (schema : Json) : Except Fault Json.Entries × Context :=
  (Conversion.node setup schema []).run.run Context.empty

/-- The document of a schema; the draft is asked for first. -/
def ofSchema (setup : Setup) (schema : Json) : Except Fault Json := do
  let draft ← setup.draftFor "schema_url"
  match run setup schema with
  | (.ok root, context) => .ok (.obj ((header draft context).merge root))
  | (.error fault, _) => .error fault

/-- The text of the document of a schema text. -/
def ofText (setup : Setup) (text : Text) : Except Fault Text := do
  let schema ← Schema.parse text
  let document ← ofSchema setup schema
  pure document.pretty

/-- The text of the document of a schema text, for a preset and a draft. -/
def ofTextWith (preset : Json) (draft : Option Draft) (text : Text) : Except Fault Text := do
  let options ← Options.resolve preset draft
  ofText options.setup text

/-- The members of a value that is taken for a union: a list has its items, a text its code points
and an object its keys. -/
def unionMembers : Json → Except Fault (List Json)
  | .arr members => .ok members
  | .str t => .ok (t.map fun c => .str [c])
  | .obj entries => .ok (entries.map fun e => Json.ofKey e.1)
  | j => .error (.uncountableUnion j)

end Document

end AvroJsonSchema
