import AvroJsonSchema.Fault

/-!
# Drafts and options

A draft of JSON Schema fixes the address of its meta-schema and the keyword of the definitions
table; references into the table follow from the keyword.  Four switches shape the document; the
default preset has them all on, for code generators, the strict preset has them all off.

* **`Draft`**: the supported drafts.  **`Draft.ofName`**: the draft of a name, whatever it is.
* **`Options`**: the switches and the draft.  **`Options.ofPreset`**: the options of a preset.
* **`Options.resolve`**: the options of a preset and a draft.
* **`Setup`**: what a converter works with.  It may hold a value that is no draft where the draft
  belongs, which is a fault only when the draft is asked for.
* **`Toggle`**, **`Setup.override`**: single switches by their names.
-/

namespace AvroJsonSchema

/-- The supported drafts of JSON Schema. -/
inductive Draft where
  | draft07 | draft202012
deriving DecidableEq

namespace Draft

/-- The address of the meta-schema. -/
def schemaUrl : Draft → Text
  | .draft07 => "http://json-schema.org/draft-07/schema#"
  | .draft202012 => "https://json-schema.org/draft/2020-12/schema"

/-- The keyword of the definitions table. -/
def definitionsKeyword : Draft → Text
  | .draft07 => "definitions"
  | .draft202012 => "$defs"

/-- What a reference into the definitions table begins with. -/
def referenceRoot (draft : Draft) : Text :=
  Text.ofString "#/" ++ draft.definitionsKeyword ++ Text.ofString "/"

/-- The draft of a name; any value that is not the name of the later draft means the earlier
one. -/
def ofName : Json → Draft
  | .str t => if t = Text.ofString "draft-2020-12" then .draft202012 else .draft07
  | _ => .draft07

end Draft

/-- What shapes a document. -/
structure Options where
  /-- A union of null and one other type is written as the other type. -/
  flattenNullableUnions : Bool
  /-- A record admits no other properties than its fields. -/
  additionalPropertiesFalse : Bool
  /-- A list of required properties that is empty is left out. -/
  omitEmptyRequired : Bool
  /-- Logical types name a class for code generators. -/
  javaTypeHints : Bool
  draft : Draft
deriving DecidableEq

/-- The switches of the options. -/
inductive Toggle where
  | flattenNullableUnions | additionalPropertiesFalse | omitEmptyRequired | javaTypeHints
deriving DecidableEq

namespace Toggle

/-- The name of a switch. -/
def text : Toggle → Text
  | .flattenNullableUnions => "flatten_nullable_unions"
  | .additionalPropertiesFalse => "additional_properties_false"
  | .omitEmptyRequired => "omit_empty_required"
  | .javaTypeHints => "java_type_hints"

/-- Every switch. -/
def all : List Toggle :=
  [.flattenNullableUnions, .additionalPropertiesFalse, .omitEmptyRequired, .javaTypeHints]

/-- The switch of a name. -/
def ofText? (t : Text) : Option Toggle :=
  all.find? (·.text = t)

end Toggle

namespace Options

/-- All switches on: the preset for code generators. -/
def pojoOptimized : Options where
  flattenNullableUnions := true
  additionalPropertiesFalse := true
  omitEmptyRequired := true
  javaTypeHints := true
  draft := .draft07

/-- All switches off: plain JSON Schema. -/
def strict : Options where
  flattenNullableUnions := false
  additionalPropertiesFalse := false
  omitEmptyRequired := false
  javaTypeHints := false
  draft := .draft07

/-- The options of a preset; null means the default one. -/
def ofPreset (preset : Json) : Except Fault Options :=
  match preset with
  | .null => .ok pojoOptimized
  | .str t =>
    if t = Text.ofString "pojo-optimized" then .ok pojoOptimized
    else if t = Text.ofString "strict" then .ok strict
    else .error (.unknownPreset preset)
  | _ => .error (.unknownPreset preset)

/-- The options with another draft. -/
def withDraft (options : Options) (draft : Draft) : Options :=
  { options with draft }

/-- The options with a switch in a state. -/
def setToggle (options : Options) (toggle : Toggle) (on : Bool) : Options :=
  match toggle with
  | .flattenNullableUnions => { options with flattenNullableUnions := on }
  | .additionalPropertiesFalse => { options with additionalPropertiesFalse := on }
  | .omitEmptyRequired => { options with omitEmptyRequired := on }
  | .javaTypeHints => { options with javaTypeHints := on }

/-- The options of a preset and a draft; without a draft the preset's own is kept. -/
def resolve (preset : Json) (draft : Option Draft) : Except Fault Options :=
  (ofPreset preset).map fun options =>
    match draft with
    | none => options
    | some draft => options.withDraft draft

/-- The draft that is chosen by a name; null chooses none. -/
def draftChoice (name : Json) : Option Draft :=
  match name with
  | .null => none
  | j => some (Draft.ofName j)

end Options

/-- What a converter works with: options, and perhaps a value in the place of their draft. -/
structure Setup where
  options : Options
  misfit : Option Json

/-- The setup of options as they are. -/
def Options.setup (options : Options) : Setup := ⟨options, none⟩

instance : Coe Options Setup := ⟨Options.setup⟩

namespace Setup

/-- The draft, for something that is asked of it. -/
def draftFor (setup : Setup) (asked : Text) : Except Fault Draft :=
  match setup.misfit with
  | none => .ok setup.options.draft
  | some value => .error (.notADraft value asked)

/-- The setup with a value in the place of one of its parts.  A switch is on if the value counts as
true; a value in the place of the draft is kept as it is. -/
def setPart (setup : Setup) (name : Text) (value : Json) : Except Fault Setup :=
  match Toggle.ofText? name with
  | some toggle => .ok { setup with options := setup.options.setToggle toggle value.isTruthy }
  | none =>
    if name = Text.ofString "draft" then .ok { setup with misfit := some value }
    else .error (.unknownToggle name)

/-- The setup with values in the places of some parts, one after the other. -/
def setParts (setup : Setup) : List (Text × Json) → Except Fault Setup
  | [] => .ok setup
  | (name, value) :: parts => do (← setup.setPart name value).setParts parts

/-- The setup with values in the places of some of its parts, each given by its name. -/
def override (setup : Setup) (parts : List (Text × Json)) : Except Fault Setup :=
  if parts.any (·.1 = Text.ofString "self") then .error .reservedToggle else setup.setParts parts

end Setup

end AvroJsonSchema
