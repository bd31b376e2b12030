import AvroJsonSchema.Proofs.Outlines

/-!
# Templates

What the draft changes in a conversion are the references alone.  A template is a tree in which a
reference is still the full name it leads to; everything that has been copied from a schema, texts
that look like a reference included, stands in it verbatim.  One template serves both drafts: the
draft is needed only to render it.

* **`Template`**: a tree with references to full names.  **`Template.render`**: the tree under a
  draft.
* **`Outline.template`**: the template of an outline.
* **`Template.ofNode`**: the template of a node and of the context that its conversion leaves.
* **`Conversion.node_rendered`**: a conversion under a draft is its template rendered.
-/

namespace AvroJsonSchema

open Table

/-- A tree in which references are still full names. -/
inductive Template where
  /-- What is the same under every draft. -/
  | verbatim (j : Json)
  /-- A reference to the record of a full name. -/
  | reference (qualified : Text)
  | arr (items : List Template)
  | obj (entries : List (Json.Key × Template))

namespace Template

/-- What an object of a template holds. -/
abbrev Entries := Table Json.Key Template

mutual

/-- The tree of a template under a draft. -/
def render (draft : Draft) : Template → Json
  | .verbatim j => j
  | .reference qualified => .str (draft.referenceRoot ++ qualified)
  | .arr items => .arr (renderItems draft items)
  | .obj entries => .obj (renderEntries draft entries)

/-- Some templates under a draft. -/
def renderItems (draft : Draft) : List Template → List Json
  | [] => []
  | item :: items => render draft item :: renderItems draft items

/-- The values of an object under a draft; its keys are the same under every draft. -/
def renderEntries (draft : Draft) : List (Json.Key × Template) → Json.Entries
  | [] => []
  | (key, value) :: entries => (key, render draft value) :: renderEntries draft entries

end

theorem renderEntries_eq (draft : Draft) (entries : Entries) :
    renderEntries draft entries = mapValues (render draft) entries := by
  induction entries with
  | nil => rw [renderEntries]; rfl
  | cons e entries ih => rw [renderEntries, ih]; rfl

/-- Gives an attribute a value. -/
def Entries.put (name : Text) (value : Template) (entries : Entries) : Entries :=
  Table.set (.text name) value entries

/-- Entries that are the same under every draft. -/
def copied (entries : Json.Entries) : Entries :=
  mapValues .verbatim entries

/-! ### What a conversion has met -/

/-- What a conversion has met so far, with the definitions as templates. -/
structure Context where
  seen : List Text
  definitions : Table Text Entries
  named : Table Text Json.Entries

/-- The context under a draft. -/
def Context.render (draft : Draft) (context : Context) : AvroJsonSchema.Context :=
  ⟨context.seen, mapValues (renderEntries draft) context.definitions, context.named⟩

/-! ### Keywords -/

section Keywords

variable (attributes : Json.Entries) (es inner : Entries)

/-- Adds the doc of an object as the description. -/
def describe : Entries :=
  match attributes.attr? "doc" with
  | some doc => es.put "description" (.verbatim doc)
  | none => es

/-- Adds the doc and the custom properties of an object. -/
def annotate : Entries :=
  (describe attributes es).merge (copied (Schema.customProperties attributes))

/-- Adds the doc and the default of a field to its property. -/
def decorate : Entries :=
  match attributes.attr? "default" with
  | some value =>
    Entries.put "default" (.verbatim value) ((describe attributes es).erase (.text "default"))
  | none => describe attributes es

/-- The keywords of a record around its properties. -/
def recordFrame (options : Options) (name : Text) (properties : Entries) (required : List Json) :
    Entries :=
  let schema := copied (Keywords.withType options attributes .object)
  let schema := schema.put "title" (.verbatim (.str (Name.localOf name)))
  let schema := schema.put "properties" (.obj properties)
  let schema :=
    if options.omitEmptyRequired && required.isEmpty then schema
    else schema.put "required" (.verbatim (.arr required))
  if options.additionalPropertiesFalse then
    schema.put "additionalProperties" (.verbatim (.bool false))
  else schema

end Keywords

/-! ### Rendering keywords -/

section Render

variable {draft : Draft} {attributes : Json.Entries} {es : Entries} {keywords : Json.Entries}

theorem render_copied (draft : Draft) (entries : Json.Entries) :
    renderEntries draft (copied entries) = entries := by
  induction entries with
  | nil => rw [copied, mapValues, List.map_nil, renderEntries]
  | cons e entries ih =>
    show renderEntries draft ((e.1, .verbatim e.2) :: copied entries) = e :: entries
    rw [renderEntries, render, ih]

theorem render_put (draft : Draft) (name : Text) (value : Template) (es : Entries) :
    renderEntries draft (es.put name value) =
      (renderEntries draft es).put name (value.render draft) := by
  rw [renderEntries_eq, renderEntries_eq, Entries.put, mapValues_set, Json.Entries.put]

theorem render_set (draft : Draft) (key : Json.Key) (value : Template) (es : Entries) :
    renderEntries draft (es.set key value) =
      (renderEntries draft es).set key (value.render draft) := by
  rw [renderEntries_eq, renderEntries_eq, mapValues_set]

theorem render_describe (h : renderEntries draft es = keywords) :
    renderEntries draft (describe attributes es) = Keywords.describe attributes keywords := by
  unfold describe Keywords.describe
  cases attributes.attr? "doc" with
  | none => exact h
  | some doc =>
    dsimp only
    rw [render_put, h, render]

theorem render_annotate (h : renderEntries draft es = keywords) :
    renderEntries draft (annotate attributes es) = Keywords.annotate attributes keywords := by
  have hmerge := mapValues_merge (render draft) (describe attributes es)
    (copied (Schema.customProperties attributes))
  rw [← renderEntries_eq, ← renderEntries_eq, ← renderEntries_eq, render_describe h,
    render_copied] at hmerge
  exact hmerge

theorem render_decorate (h : renderEntries draft es = keywords) :
    renderEntries draft (decorate attributes es) = Keywords.decorate attributes keywords := by
  unfold decorate Keywords.decorate
  dsimp only
  cases attributes.attr? "default" with
  | none => exact render_describe h
  | some value =>
    dsimp only
    rw [render_put, renderEntries_eq, mapValues_erase, ← renderEntries_eq, render_describe h, render]

theorem render_recordFrame (options : Options) (name : Text) (required : List Json)
    (h : renderEntries draft es = keywords) :
    renderEntries draft (recordFrame attributes options name es required) =
      Keywords.recordFrame options name attributes keywords required := by
  unfold recordFrame Keywords.recordFrame
  dsimp only
  split <;> split <;> simp only [render_put, render_copied, render, h]

end Render

end Template

/-! ### The template of an outline -/

namespace Outline

open Template

/-- The template of a node below which nothing is written. -/
def Flat.template (options : Options) : Flat → Template.Entries
  | .scalar s attributes => copied (Flat.write options (.scalar s attributes))
  | .enum symbols attributes => copied (Flat.write options (.enum symbols attributes))
  | .reference qualified => [(.text "$ref", .reference qualified)]

mutual

/-- The template of an outline. -/
def template (options : Options) : Outline → Template.Entries
  | .flat f => f.template options
  | .annotated attributes target =>
    annotate attributes
      ((copied (Keywords.ofLogicalType options attributes)).mergeAbsent (target.template options))
  | .nullable member p => copied (Keywords.nullableScalar options member p)
  | .array attributes items =>
    annotate attributes
      ((copied (Keywords.withType options attributes .array)).put "items"
        (.obj (template options items)))
  | .map attributes values =>
    annotate attributes
      ((copied (Keywords.withType options attributes .object)).put "additionalProperties"
        (.obj (template options values)))
  | .record qualified attributes fields =>
    annotate attributes
      (recordFrame attributes options qualified (templateFields options fields [])
        (requiredNames fields))
  | .choice branches => [(.text "oneOf", .arr (templateBranches options branches))]

/-- The templates of the branches of a choice. -/
def templateBranches (options : Options) : List Outline → List Template
  | [] => []
  | branch :: branches => .obj (template options branch) :: templateBranches options branches

/-- The templates of the properties of some fields put among those before them. -/
def templateFields (options : Options) :
    List (Field × Outline) → Template.Entries → Template.Entries
  | [], properties => properties
  | (field, type) :: fields, properties =>
    templateFields options fields
      (properties.set field.key (.obj (decorate field.attributes (template options type))))

end

theorem Flat.render_template (options : Options) (draft : Draft) (flat : Flat) :
    renderEntries draft (flat.template options) = flat.write (options.withDraft draft) := by
  cases flat with
  | scalar s attributes => exact render_copied draft _
  | enum symbols attributes => exact render_copied draft _
  | reference qualified =>
    rw [template, renderEntries, renderEntries, render]
    rfl

theorem render_templateBranches {options : Options} {draft : Draft} {branches : List Outline}
    (ih : ∀ branch ∈ branches,
      renderEntries draft (branch.template options) = branch.write (options.withDraft draft)) :
    renderItems draft (templateBranches options branches) =
      writeBranches (options.withDraft draft) branches := by
  induction branches with
  | nil => rw [templateBranches, renderItems, writeBranches]
  | cons branch branches hrest =>
    obtain ⟨hbranch, hbranches⟩ := List.forall_mem_cons.1 ih
    rw [templateBranches, renderItems, writeBranches, render, hbranch, hrest hbranches]

theorem render_templateFields {options : Options} {draft : Draft} {fields : List (Field × Outline)}
    (ih : ∀ field ∈ fields,
      renderEntries draft (field.2.template options) = field.2.write (options.withDraft draft))
    {es : Template.Entries} {properties : Json.Entries} (h : renderEntries draft es = properties) :
    renderEntries draft (templateFields options fields es) =
      writeFields (options.withDraft draft) fields properties := by
  induction fields generalizing es properties with
  | nil => rwa [templateFields, writeFields]
  | cons field fields hrest =>
    obtain ⟨hfield, hfields⟩ := List.forall_mem_cons.1 ih
    rw [templateFields, writeFields]
    refine hrest hfields ?_
    rw [render_set, render, h, render_decorate hfield]

/-- Under every draft, the template of an outline is rendered as what is written of it. -/
theorem render_template (options : Options) (draft : Draft) (outline : Outline) :
    renderEntries draft (outline.template options) = outline.write (options.withDraft draft) := by
  induction outline using Outline.induction with
  | flat f => rw [template, write, f.render_template]
  | annotated attributes target =>
    rw [template, write]
    refine render_annotate ?_
    rw [renderEntries_eq, mapValues_mergeAbsent, ← renderEntries_eq, ← renderEntries_eq,
      render_copied, target.render_template]
    rfl
  | nullable member p =>
    rw [template, write, render_copied]
    rfl
  | array attributes items ih =>
    rw [template, write]
    refine render_annotate ?_
    rw [render_put, render_copied, render, ih]
    rfl
  | map attributes values ih =>
    rw [template, write]
    refine render_annotate ?_
    rw [render_put, render_copied, render, ih]
    rfl
  | record qualified attributes fields ih =>
    rw [template, write]
    exact render_annotate (render_recordFrame _ _ _ (render_templateFields ih (by rw [renderEntries])))
  | choice branches ih =>
    rw [template, write, renderEntries, renderEntries, render, render_templateBranches ih]
    rfl

end Outline

namespace Template

/-- The context that comes out of some definitions when the finished records are added to them. -/
def Context.ofLedger (options : Options) (before : Table Text Entries) (ledger : Ledger) : Context :=
  ⟨ledger.seen, before.merge (mapValues (Outline.template options) ledger.finished), ledger.named⟩

theorem Context.render_ofLedger (options : Options) (draft : Draft) (before : Table Text Entries)
    (ledger : Ledger) :
    (ofLedger options before ledger).render draft =
      ledger.written (options.withDraft draft) (mapValues (renderEntries draft) before) := by
  have hfinished : mapValues (renderEntries draft)
      (mapValues (Outline.template options) ledger.finished) =
        ledger.definitions (options.withDraft draft) := by
    simp only [mapValues, Ledger.definitions, List.map_map, Function.comp_def,
      Outline.render_template]
  rw [ofLedger, render, Ledger.written, mapValues_merge, hfinished]

/-- The template of a node within a namespace and of the context that its conversion leaves, or the
fault that it stops at. -/
def ofNode (options : Options) (schema : Json) (enclosing : Text) (start : Context) :
    Except Fault Entries × Context :=
  let (result, ledger) :=
    (Outlining.node options.flattenNullableUnions schema enclosing).outcome
      ⟨start.seen, start.named, []⟩
  (result.map (Outline.template options), .ofLedger options start.definitions ledger)

end Template

namespace Conversion

open Template

/-- **The draft only renders references.**  A conversion from a context that is a template rendered
stops at the fault of the template, or yields the template of the node rendered; it leaves the
template of the context rendered.  The options of the template are the same for every draft. -/
theorem node_rendered (options : Options) (schema : Json) (enclosing : Text)
    (start : Template.Context) (draft : Draft) :
    (node (options.withDraft draft) schema enclosing).outcome (start.render draft) =
      ((ofNode options schema enclosing start).1.map (renderEntries draft),
        (ofNode options schema enclosing start).2.render draft) := by
  rcases hmade : (Outlining.node options.flattenNullableUnions schema enclosing).outcome
    ⟨start.seen, start.named, []⟩ with ⟨result, ledger⟩
  have htemplate : ofNode options schema enclosing start =
      (result.map (Outline.template options), .ofLedger options start.definitions ledger) := by
    rw [ofNode, hmade]
  have hrun := written_node (options.withDraft draft) schema enclosing
    (mapValues (renderEntries draft) start.definitions) ⟨start.seen, start.named, []⟩
  rw [show (options.withDraft draft).flattenNullableUnions = options.flattenNullableUnions from rfl,
    hmade] at hrun
  rw [htemplate, Context.render_ofLedger]
  refine hrun.trans ?_
  cases result with
  | error fault => rfl
  | ok outline =>
    simp only [Except.map, Outline.render_template]

/-- A record that refers to itself, with a doc that looks like a reference under one draft. -/
def lookAlike : Json :=
  .obj [(.text "type", "record"), (.text "name", "A"), (.text "doc", "#/definitions/A"),
    (.text "fields", .arr [.obj [(.text "name", "next"), (.text "type", "A")]])]

example : (ofNode .strict lookAlike [] ⟨[], [], []⟩).1 = .ok
    [(.text "type", .verbatim "object"), (.text "title", .verbatim "A"),
      (.text "properties", .obj [(.text "next", .obj [(.text "$ref", .reference "A")])]),
      (.text "required", .verbatim (.arr ["next"])),
      (.text "description", .verbatim "#/definitions/A")] := by
  with_unfolding_all rfl

end Conversion

end AvroJsonSchema
