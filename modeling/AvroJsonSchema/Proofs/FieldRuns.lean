import AvroJsonSchema.Proofs.Contexts

/-!
# Runs over the fields of a record

The fields of a record are converted from front to back, each to one property, while the table of
the properties and the list of the required names grow.  What a run that ends well has done is told
without the table: which property became of each field, and which names came to be required.  The
table is then what the properties give when they are put in one after the other.

* **`Conversion.FieldRun`**: a run that ends well, field by field.
* **`Conversion.fieldRun_of_ok`**: the table and the list that it leaves.
* **`Conversion.FieldRun.evolves`**: a run leaves no record unfinished.
* **`Conversion.property`**, **`Conversion.properties`**: what becomes of a field and of some fields, also
  where this is a fault.  **`Conversion.fields_eq`**: the fields of a record are converted to these.
-/

namespace AvroJsonSchema

open Schema Step

/-- The entries of a table of properties. -/
def Keywords.propertyEntries (properties : List (Json.Key × Json.Entries)) : Json.Entries :=
  properties.map fun p => (p.1, .obj p.2)

namespace Conversion

open Keywords

/-- Some fields are converted one after the other, each to a property under its key; the names of
those whose types do not admit null come to be required. -/
inductive FieldRun (setup : Setup) (record : Text) :
    List Json → Context → List (Json.Key × Json.Entries) → List Json → Context → Prop
  | nil (c : Context) : FieldRun setup record [] c [] [] c
  | cons {field name type : Json} {more required : List Json} {attributes property : Json.Entries}
      {key : Json.Key} {nullable : Bool} {rest : List (Json.Key × Json.Entries)} {c c₁ c' : Context} :
      fieldParts record field = .ok (attributes, name, type) → name.toKey? = some key →
      outcome (node setup type (Name.namespaceOf record)) c = (.ok property, c₁) →
      isNullable type = .ok nullable → FieldRun setup record more c₁ rest required c' →
      FieldRun setup record (field :: more) c ((key, decorate attributes property) :: rest)
        (if nullable then required else name :: required) c'

variable {setup : Setup} {record : Text} {list : List Json} {c c' : Context}

theorem addField_ok {field property properties : Json.Entries} {fieldName : Json} {nullable : Bool}
    {required : List Json} {added : Json.Entries × List Json}
    (h : addField field fieldName nullable property properties required = .ok added) :
    ∃ key, fieldName.toKey? = some key
      ∧ added = (properties.set key (.obj (decorate field property)),
        if nullable then required else required ++ [fieldName]) := by
  unfold addField at h
  split at h
  · cases h
  · rename_i key hkey
    cases h
    exact ⟨key, hkey, rfl⟩

/-- A run that ends well leaves the table that the properties give, and the names that came to be
required, after what there was before. -/
theorem fieldRun_of_ok {properties : Json.Entries} {required : List Json}
    {made : Json.Entries × List Json}
    (h : outcome (fields setup record list properties required) c = (.ok made, c')) :
    ∃ run names, FieldRun setup record list c run names c'
      ∧ made = (properties.merge (propertyEntries run), required ++ names) := by
  induction list generalizing properties required c with
  | nil =>
    rw [fields_nil] at h
    cases h
    exact ⟨[], [], .nil _, by rw [List.append_nil]; rfl⟩
  | cons field more ih =>
    obtain ⟨attributes, name, type, property, nullable, added, c₁, hp, hnode, hnull, hadd, hrest⟩ :=
      fields_cons_ok h
    obtain ⟨key, hkey, rfl⟩ := addField_ok hadd
    obtain ⟨run, names, hrun, rfl⟩ := ih hrest
    refine ⟨_, _, .cons hp hkey hnode hnull hrun, Prod.ext rfl ?_⟩
    cases nullable <;> simp

/-- A run leaves no record unfinished. -/
theorem FieldRun.evolves {run : List (Json.Key × Json.Entries)} {names : List Json}
    (h : FieldRun setup record list c run names c') (hc : c.Sound) : c.Evolves c' [] := by
  induction h with
  | nil => exact .refl hc
  | cons _ _ hnode _ _ ih =>
    have hfirst := (evolving_node _ _).of_ok hc hnode
    exact hfirst.trans (ih hfirst.sound)

/-! ### Properties without a table -/

/-- What becomes of a field: its keywords under a key, and its name if that comes to be required. -/
structure FieldProperty where
  key : Json.Key
  keywords : Json.Entries
  required : List Json

/-- The entry of a property. -/
def FieldProperty.entry (p : FieldProperty) : Json.Key × Json :=
  (p.key, .obj p.keywords)

/-- The property of a field from its parts and from what its type has been converted to. -/
def propertyOf (attributes : Json.Entries) (name : Json) (nullable : Bool) (converted : Json.Entries) :
    Except Fault FieldProperty :=
  match name.toKey? with
  | none => .error (.unusableKey name)
  | some key => .ok ⟨key, decorate attributes converted, if nullable then [] else [name]⟩

/-- Converts a field of a record to its property, whatever the properties before it are. -/
def property (setup : Setup) (record : Text) (field : Json) : Step FieldProperty :=
  Step.ofExcept (fieldParts record field) >>= fun parts =>
    node setup parts.2.2 (Name.namespaceOf record) >>= fun converted =>
      Step.ofExcept (isNullable parts.2.2) >>= fun nullable =>
        Step.ofExcept (propertyOf parts.1 parts.2.1 nullable converted)

/-- Converts some fields of a record one after the other. -/
def properties (setup : Setup) (record : Text) : List Json → Step (List FieldProperty)
  | [] => pure []
  | field :: more =>
    property setup record field >>= fun first =>
      properties setup record more >>= (pure ∘ fun rest => first :: rest)

/-- The properties and the required names of a record, of which some are there already. -/
def addProperties (table : Json.Entries) (required : List Json) (made : List FieldProperty) :
    Json.Entries × List Json :=
  (table.merge (made.map FieldProperty.entry), required ++ made.flatMap FieldProperty.required)

theorem evolving_property (field : Json) : Evolving (property setup record field) :=
  (Evolving.ofExcept _).bind fun _ => (evolving_node _ _).bind fun _ =>
    (Evolving.ofExcept _).bind fun _ => .ofExcept _

theorem evolving_properties (list : List Json) : Evolving (properties setup record list) := by
  induction list with
  | nil =>
    rw [properties]
    exact .pure _
  | cons field more ih =>
    rw [properties]
    exact (evolving_property field).bind fun _ => ih.map _

theorem properties_append (before after : List Json) :
    properties setup record (before ++ after) =
      properties setup record before >>= fun first =>
        properties setup record after >>= (pure ∘ fun rest => first ++ rest) := by
  induction before with
  | nil =>
    rw [properties, pure_bind]
    exact (bind_pure _).symm
  | cons field more ih =>
    rw [List.cons_append, properties, properties, ih]
    simp only [bind_assoc, Function.comp_apply, pure_bind, List.cons_append]
    rfl

theorem addField_eq (attributes : Json.Entries) (name : Json) (nullable : Bool)
    (converted table : Json.Entries) (required : List Json) :
    addField attributes name nullable converted table required =
      (propertyOf attributes name nullable converted).map fun p => addProperties table required [p] := by
  unfold addField propertyOf
  cases name.toKey? with
  | none => rfl
  | some key => cases nullable <;> simp [Except.map, addProperties, FieldProperty.entry, Table.merge]

/-- The fields of a record are converted to their properties, which are put in one after the other. -/
theorem fields_eq (table : Json.Entries) (required : List Json) :
    fields setup record list table required =
      properties setup record list >>= (pure ∘ addProperties table required) := by
  induction list generalizing table required with
  | nil =>
    rw [fields_nil, properties, pure_bind]
    simp [addProperties, Table.merge]
  | cons field more ih =>
    rw [properties, property]
    cases hp : fieldParts record field with
    | error fault =>
      rw [fields_of_fault hp]
      rfl
    | ok parts =>
      obtain ⟨attributes, name, type⟩ := parts
      rw [fields_cons hp]
      simp only [Step.ofExcept, pure_bind, bind_assoc, Function.comp_apply]
      refine bind_congr fun converted => bind_congr fun nullable => ?_
      rw [addField_eq]
      cases propertyOf attributes name nullable converted with
      | error fault => rfl
      | ok p =>
        simp only [Except.map, pure_bind, ih]
        refine bind_congr fun rest => ?_
        simp [addProperties, Table.merge]

end Conversion

end AvroJsonSchema
