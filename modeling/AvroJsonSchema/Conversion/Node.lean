import AvroJsonSchema.Conversion.Keywords

/-!
# Converting a node

A node becomes the keywords of a schema.  A record is entered before its fields and left after
them; a record that has been entered before becomes a reference.  The name of an enum or of a fixed
type is written out again wherever it stands.  The recursion goes down the nodes of the schema
alone: a name never leads into another record, so it ends by the size of the schema.

* **`Conversion.leaf`**: an enum or a fixed type.
* **`Conversion.typeName`**: a type name.
* **`Conversion.node`**, **`Conversion.union`**: a node and a union, with the nodes below.
-/

namespace AvroJsonSchema

namespace Conversion

/-- The keywords of an enum, of which the symbols have to be texts. -/
def enumKeywords (options : Options) (qualified : Text) (attributes : Json.Entries) :
    Except Fault Json.Entries := do
  let symbols ← Schema.require attributes "symbols" []
  match Keywords.symbols? symbols with
  | some items =>
    pure ((Keywords.withType options attributes .string).put "enum" (.arr items))
  | none => .error (SchemaFault.symbolsNotTexts qualified)

/-- The keywords of an enum or a fixed type. -/
def leafKeywords (options : Options) (kind : Leaf) (qualified : Text)
    (attributes : Json.Entries) : Except Fault Json.Entries :=
  match kind with
  | .enum => enumKeywords options qualified attributes
  | .fixed => .ok (Keywords.ofScalar options attributes .fixed)

/-- Converts an enum or a fixed type, which from then on is defined unless its full name is
empty. -/
def leaf (options : Options) (kind : Leaf) (name : Text) (attributes : Json.Entries)
    (enclosing : Text) : Step Json.Entries := do
  let qualified ← Step.ofExcept (Name.ofNamed name attributes enclosing)
  unless qualified.isEmpty do modify (Context.addNamed qualified attributes)
  let schema ← Step.ofExcept (leafKeywords options kind qualified attributes)
  pure (Keywords.annotate attributes schema)

/-- A reference to a record, for which the draft is needed. -/
def reference (setup : Setup) (name : Text) : Step Json.Entries :=
  Step.ofExcept ((setup.draftFor "ref_prefix").map (Keywords.reference · name))

/-- Converts a type name: a primitive type by its type, a record by a reference, an enum or a
fixed type by its definition. -/
def typeName (setup : Setup) (name enclosing : Text) : Step Json.Entries := do
  match Primitive.ofText? name with
  | some p => pure ((Scalar.primitive p).apply false [])
  | none =>
    let qualified ← Step.inspect (Context.resolve · name enclosing)
    let context ← get
    if context.seen.contains qualified then reference setup qualified
    else
      match Schema.objectShape ((context.named.get? qualified).getD []) with
      | .leaf kind name attributes =>
        leaf setup.options kind name attributes (Name.namespaceOf qualified)
      | _ => reference setup qualified

/-- The members of a union that are not null. -/
def nonNull : List Json → Except Fault (List Json)
  | [] => .ok []
  | j :: js => do
    let isNull := Schema.isNullKind (← Schema.kind j)
    let rest ← nonNull js
    pure (if isNull then rest else j :: rest)

/-- The primitive type of a kind, if it is one. -/
def primitiveOfKind? : Json → Option Primitive
  | .str t => Primitive.ofText? t
  | _ => none

theorem mem_of_nonNull {members rest : List Json} (h : nonNull members = .ok rest) :
    ∀ j ∈ rest, j ∈ members := by
  induction members generalizing rest with
  | nil =>
    simp only [nonNull, Except.ok.injEq] at h
    simp [← h]
  | cons i is ih =>
    simp only [nonNull, bind, Except.bind] at h
    split at h
    · cases h
    · split at h
      · cases h
      · rename_i more hm
        simp only [pure, Except.pure, Except.ok.injEq] at h
        intro j hj
        rw [← h] at hj
        split at hj
        · exact List.mem_cons_of_mem _ (ih hm j hj)
        · rcases List.mem_cons.1 hj with rfl | hj
          · exact List.mem_cons_self
          · exact List.mem_cons_of_mem _ (ih hm j hj)

/-- The name and the type of a field, and the attributes they stand in. -/
def fieldParts (record : Text) (field : Json) : Except Fault (Json.Entries × Json × Json) :=
  match field with
  | .obj attributes => do
    let name ← Schema.require attributes "name" record
    let type ← Schema.require attributes "type" (record ++ Text.dot :: name.bare)
    pure (attributes, name, type)
  | j => .error (SchemaFault.fieldNotObject j record)

theorem size_lt_of_fieldParts {record : Text} {field name type : Json} {es : Json.Entries}
    (h : fieldParts record field = .ok (es, name, type)) : type.size < field.size := by
  unfold fieldParts at h
  split at h
  · rename_i attributes
    simp only [Schema.require, bind, Except.bind] at h
    split at h
    · cases h
    · split at h
      · cases h
      · rename_i t ht
        simp only [pure, Except.pure, Except.ok.injEq, Prod.mk.injEq] at h
        obtain ⟨rfl, -, rfl⟩ := h
        split at ht
        · rename_i j hj
          cases ht
          exact Json.size_lt_of_attr? hj
        · cases ht
  · cases h

/-- The fields of a record. -/
def fieldList (qualified : Text) (attributes : Json.Entries) :
    Except Fault { fields : List Json // Json.sizeOfItems fields < (Json.obj attributes).size } :=
  match h : Json.Entries.attr? "fields" attributes with
  | some (.arr fields) =>
    .ok ⟨fields, by
      have := Json.size_lt_of_attr? h
      simp only [Json.size] at *
      omega⟩
  | some _ => .error (SchemaFault.fieldsNotList qualified)
  | none => .error (Schema.missing attributes "fields" [])

/-- The property of a field put among those before it, and its name among the required ones if it
does not admit null. -/
def addField (attributes : Json.Entries) (name : Json) (nullable : Bool) (property : Json.Entries)
    (properties : Json.Entries) (required : List Json) :
    Except Fault (Json.Entries × List Json) :=
  match name.toKey? with
  | none => .error (.unusableKey name)
  | some key =>
    .ok (properties.set key (.obj (Keywords.decorate attributes property)),
      if nullable then required else required ++ [name])

mutual

/-- Converts a node within a namespace. -/
def node (setup : Setup) (schema : Json) (enclosing : Text) : Step Json.Entries :=
  match h : Schema.shape schema with
  | .malformed fault => throw (.schema fault)
  | .union members =>
    have : schema.size = Json.sizeOfItems members + 1 := by
      rw [Schema.eq_arr_of_shape h, Json.size]
    union setup members enclosing
  | .name name => typeName setup name enclosing
  | .wrapper inner =>
    have := Schema.size_lt_of_wrapper h
    node setup inner enclosing
  | .primitive p attributes =>
    pure (Keywords.annotate attributes (Keywords.ofScalar setup.options attributes (.primitive p)))
  | .leaf kind name attributes => leaf setup.options kind name attributes enclosing
  | .array items attributes => do
    have := Schema.size_lt_of_array h
    let inner ← node setup items enclosing
    let schema := Keywords.withType setup.options attributes .array
    pure (Keywords.annotate attributes (schema.put "items" (.obj inner)))
  | .map values attributes => do
    have := Schema.size_lt_of_map h
    let inner ← node setup values enclosing
    let schema := Keywords.withType setup.options attributes .object
    pure (Keywords.annotate attributes (schema.put "additionalProperties" (.obj inner)))
  | .reference name attributes => do
    let target ← typeName setup name enclosing
    let schema := (Keywords.ofLogicalType setup.options attributes).mergeAbsent target
    pure (Keywords.annotate attributes schema)
  | .record name attributes => do
    have hs := Schema.eq_obj_of_record h
    let qualified ← Step.ofExcept (Name.ofNamed name attributes enclosing)
    if (← get).seen.contains qualified then reference setup qualified
    else
      modify (Context.enter qualified attributes)
      let list ← Step.ofExcept (fieldList qualified attributes)
      have : Json.sizeOfItems list.1 < schema.size := hs ▸ list.2
      let (properties, required) ← fields setup qualified list.1 [] []
      let schema := Keywords.annotate attributes
        (Keywords.recordFrame setup.options qualified attributes properties required)
      modify (Context.define qualified schema)
      pure schema
termination_by 3 * schema.size

/-- Converts a union within a namespace. -/
def union (setup : Setup) (members : List Json) (enclosing : Text) : Step Json.Entries :=
  match h : nonNull members with
  | .error fault => throw fault
  | .ok [member] =>
    have : member.size ≤ Json.sizeOfItems members :=
      Json.size_le_sizeOfItems (mem_of_nonNull h member (by simp))
    if members.length = 1 then branches setup members enclosing >>= (pure ∘ Keywords.oneOf)
    else if setup.options.flattenNullableUnions then node setup member enclosing
    else do
      let kind ← Step.inspect (Context.resolveKind · member enclosing)
      match primitiveOfKind? kind with
      | some p => pure (Keywords.nullableScalar setup.options member p)
      | none =>
        let branch ← node setup member enclosing
        pure (Keywords.oneOf [Keywords.nullSchema, .obj branch])
  | .ok _ => branches setup members enclosing >>= (pure ∘ Keywords.oneOf)
termination_by 3 * Json.sizeOfItems members + 2

/-- Converts some nodes one after the other. -/
def branches (setup : Setup) (nodes : List Json) (enclosing : Text) : Step (List Json) :=
  match nodes with
  | [] => pure []
  | j :: js => do
    have := Json.sizeOfItems_cons j js
    have := Json.size_pos j
    let first ← node setup j enclosing
    let rest ← branches setup js enclosing
    pure (.obj first :: rest)
termination_by 3 * Json.sizeOfItems nodes + 1

/-- Converts the fields of a record one after the other, and adds them to the properties and the
required names before them. -/
def fields (setup : Setup) (record : Text) (list : List Json) (properties : Json.Entries)
    (required : List Json) : Step (Json.Entries × List Json) :=
  match list with
  | [] => pure (properties, required)
  | field :: more =>
    match h : fieldParts record field with
    | .error fault => throw fault
    | .ok (attributes, name, type) => do
      have := size_lt_of_fieldParts h
      have := Json.sizeOfItems_cons field more
      let property ← node setup type (Name.namespaceOf record)
      let nullable ← Step.ofExcept (Schema.isNullable type)
      let (properties, required) ←
        Step.ofExcept (addField attributes name nullable property properties required)
      fields setup record more properties required
termination_by 3 * Json.sizeOfItems list + 1

end

end Conversion

end AvroJsonSchema
