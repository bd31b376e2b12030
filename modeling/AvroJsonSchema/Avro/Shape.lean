import AvroJsonSchema.Avro.Schema

/-!
# The shape of a node

A node of a schema is read one level deep: what it is, and which nodes stand below it.  What can
be wrong with a node apart from the nodes below it and the names defined so far is part of its
shape.

* **`Shape`**, **`Schema.shape`**: what a node is.
* **`Schema.shape_cases`**: the attributes in a shape are those of the node.
* **`Schema.size_lt_of_wrapper`**, **`Schema.size_lt_of_array`**, **`Schema.size_lt_of_map`**: the
  nodes below are smaller.
-/

namespace AvroJsonSchema

/-- The named types that hold no other type. -/
inductive Leaf where
  | enum | fixed
deriving DecidableEq

/-- The complex type of a leaf. -/
def Leaf.complex : Leaf → Complex
  | .enum => .enum
  | .fixed => .fixed

/-- What a node of a schema is, one level deep. -/
inductive Shape where
  | union (members : List Json)
  /-- A type name that stands alone. -/
  | name (name : Text)
  /-- An object whose type is itself an object or a list. -/
  | wrapper (inner : Json)
  | record (name : Text) (attributes : Json.Entries)
  | leaf (kind : Leaf) (name : Text) (attributes : Json.Entries)
  | array (items : Json) (attributes : Json.Entries)
  | map (values : Json) (attributes : Json.Entries)
  | primitive (p : Primitive) (attributes : Json.Entries)
  /-- An object whose type is the name of a defined type. -/
  | reference (name : Text) (attributes : Json.Entries)
  | malformed (fault : SchemaFault)

namespace Schema

/-- The shape of a definition with a name. -/
def namedShape (c : Complex) (attributes : Json.Entries) (shape : Text → Shape) : Shape :=
  match attributes.attr? "name" with
  | none => .malformed (missing attributes "name" [])
  | some (.str name) => shape name
  | some j => .malformed (.nameNotText c.text j)

/-- The shape of a container over the type that an attribute holds. -/
def containerShape (attributes : Json.Entries) (holder : Text) (shape : Json → Shape) : Shape :=
  match attributes.attr? holder with
  | none => .malformed (missing attributes holder [])
  | some j => shape j

/-- The shape of an object of a complex type. -/
def complexShape (c : Complex) (attributes : Json.Entries) : Shape :=
  match c with
  | .record => namedShape c attributes (.record · attributes)
  | .error => namedShape c attributes (.record · attributes)
  | .enum => namedShape c attributes (.leaf .enum · attributes)
  | .fixed => namedShape c attributes (.leaf .fixed · attributes)
  | .array => containerShape attributes "items" (.array · attributes)
  | .map => containerShape attributes "values" (.map · attributes)

/-- The shape of an object by its type. -/
def objectShape (attributes : Json.Entries) : Shape :=
  match attributes.attr? "type" with
  | none => .malformed (missing attributes "type" [])
  | some (.arr members) => .wrapper (.arr members)
  | some (.obj inner) => .wrapper (.obj inner)
  | some (.str t) =>
    match TypeName.ofText t with
    | .primitive p => .primitive p attributes
    | .complex c => complexShape c attributes
    | .defined name => .reference name attributes
  | some j => .malformed (.invalidType j)

/-- The shape of a node. -/
def shape : Json → Shape
  | .arr members => .union members
  | .str name => .name name
  | .obj attributes => objectShape attributes
  | j => .malformed (.unexpectedConstruct j)

/-! ### What a shape says of its node -/

theorem namedShape_eq (c : Complex) (attributes : Json.Entries) (shape : Text → Shape) :
    (∃ name, namedShape c attributes shape = shape name)
      ∨ ∃ fault, namedShape c attributes shape = .malformed fault := by
  unfold namedShape
  split
  · exact .inr ⟨_, rfl⟩
  · exact .inl ⟨_, rfl⟩
  · exact .inr ⟨_, rfl⟩

theorem containerShape_eq (attributes : Json.Entries) (holder : Text) (shape : Json → Shape) :
    (∃ j, attributes.attr? holder = some j ∧ containerShape attributes holder shape = shape j)
      ∨ ∃ fault, containerShape attributes holder shape = .malformed fault := by
  unfold containerShape
  split
  · exact .inr ⟨_, rfl⟩
  · rename_i j h
    exact .inl ⟨j, h, rfl⟩

/-- What holds of a shape and of the object it is made from. -/
def fits (attributes : Json.Entries) : Shape → Prop
  | .union _ => False
  | .name _ => False
  | .wrapper inner => attributes.attr? "type" = some inner
  | .record _ es => es = attributes
  | .leaf _ _ es => es = attributes
  | .array items es => es = attributes ∧ attributes.attr? "items" = some items
  | .map values es => es = attributes ∧ attributes.attr? "values" = some values
  | .primitive _ es => es = attributes
  | .reference _ es => es = attributes
  | .malformed _ => True

theorem complexShape_fits (c : Complex) (attributes : Json.Entries) :
    fits attributes (complexShape c attributes) := by
  have named : ∀ shape : Text → Shape, (∀ name, fits attributes (shape name)) →
      fits attributes (namedShape c attributes shape) := by
    intro shape hs
    rcases namedShape_eq c attributes shape with ⟨name, h⟩ | ⟨fault, h⟩
    · exact h ▸ hs name
    · rw [h]; trivial
  have contained : ∀ (holder : Text) (shape : Json → Shape),
      (∀ j, attributes.attr? holder = some j → fits attributes (shape j)) →
      fits attributes (containerShape attributes holder shape) := by
    intro holder shape hs
    rcases containerShape_eq attributes holder shape with ⟨j, hj, h⟩ | ⟨fault, h⟩
    · exact h ▸ hs j hj
    · rw [h]; trivial
  cases c with
  | record => exact named _ fun _ => rfl
  | error => exact named _ fun _ => rfl
  | enum => exact named _ fun _ => rfl
  | fixed => exact named _ fun _ => rfl
  | array => exact contained _ _ fun _ h => ⟨rfl, h⟩
  | map => exact contained _ _ fun _ h => ⟨rfl, h⟩

theorem objectShape_fits (attributes : Json.Entries) :
    fits attributes (objectShape attributes) := by
  unfold objectShape
  split
  · trivial
  · assumption
  · assumption
  · split
    · rfl
    · exact complexShape_fits _ _
    · rfl
  · trivial

/-- A node is a list or a name as its shape says, malformed, or an object that its shape fits. -/
theorem shape_cases (schema : Json) :
    (∃ members, schema = .arr members ∧ shape schema = .union members)
      ∨ (∃ name, schema = .str name ∧ shape schema = .name name)
      ∨ (∃ fault, shape schema = .malformed fault)
      ∨ ∃ attributes, schema = .obj attributes ∧ fits attributes (shape schema) := by
  cases schema with
  | arr members => exact .inl ⟨members, rfl, rfl⟩
  | str name => exact .inr (.inl ⟨name, rfl, rfl⟩)
  | obj attributes => exact .inr (.inr (.inr ⟨attributes, rfl, objectShape_fits attributes⟩))
  | null => exact .inr (.inr (.inl ⟨_, rfl⟩))
  | bool b => exact .inr (.inr (.inl ⟨_, rfl⟩))
  | int n => exact .inr (.inr (.inl ⟨_, rfl⟩))
  | float x => exact .inr (.inr (.inl ⟨_, rfl⟩))

theorem eq_arr_of_shape {schema : Json} {members : List Json}
    (h : shape schema = .union members) : schema = .arr members := by
  rcases shape_cases schema with ⟨ms, hs, hm⟩ | ⟨_, _, hm⟩ | ⟨_, hm⟩ | ⟨_, _, hm⟩ <;> rw [h] at hm
  · cases hm; exact hs
  · cases hm
  · cases hm
  · exact hm.elim

theorem fits_of_shape {schema : Json} {s : Shape} (h : shape schema = s)
    (hu : ∀ members, s ≠ .union members) (hn : ∀ name, s ≠ .name name)
    (hf : ∀ fault, s ≠ .malformed fault) :
    ∃ attributes, schema = .obj attributes ∧ fits attributes s := by
  rcases shape_cases schema with ⟨ms, _, hm⟩ | ⟨n, _, hm⟩ | ⟨f, hm⟩ | ⟨es, he, hm⟩ <;>
    rw [h] at hm
  · exact absurd hm (hu ms)
  · exact absurd hm (hn n)
  · exact absurd hm (hf f)
  · exact ⟨es, he, hm⟩

theorem size_lt_of_wrapper {schema inner : Json} (h : shape schema = .wrapper inner) :
    inner.size < schema.size := by
  obtain ⟨es, rfl, he⟩ := fits_of_shape h (by simp) (by simp) (by simp)
  exact Json.size_lt_of_attr? he

theorem size_lt_of_array {schema items : Json} {es : Json.Entries}
    (h : shape schema = .array items es) : items.size < schema.size := by
  obtain ⟨_, rfl, -, he⟩ := fits_of_shape h (by simp) (by simp) (by simp)
  exact Json.size_lt_of_attr? he

theorem size_lt_of_map {schema values : Json} {es : Json.Entries}
    (h : shape schema = .map values es) : values.size < schema.size := by
  obtain ⟨_, rfl, -, he⟩ := fits_of_shape h (by simp) (by simp) (by simp)
  exact Json.size_lt_of_attr? he

theorem eq_obj_of_record {schema : Json} {name : Text} {es : Json.Entries}
    (h : shape schema = .record name es) : schema = .obj es := by
  obtain ⟨_, rfl, rfl⟩ := fits_of_shape h (by simp) (by simp) (by simp)
  rfl

end Schema

end AvroJsonSchema
