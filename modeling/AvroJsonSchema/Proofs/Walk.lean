import AvroJsonSchema.Proofs.Runs

/-!
# The nodes of a schema

A schema is walked from its root to the members of unions, the types inside wrappers, the items of
arrays, the values of maps and the types of fields.  What holds of a node as soon as it holds of
the nodes directly below it holds of every node.

* **`Schema.Child`**: a node stands directly below another one.
* **`Schema.Below`**: a node stands somewhere below another one, or is it.
* **`Schema.induction`**: induction along the nodes of a schema.
-/

namespace AvroJsonSchema

namespace Schema

/-- A node stands directly below another one. -/
inductive Child : Json → Json → Prop
  | member {schema j : Json} {members : List Json} :
      shape schema = .union members → j ∈ members → Child j schema
  | inner {schema j : Json} : shape schema = .wrapper j → Child j schema
  | items {schema j : Json} {attributes : Json.Entries} :
      shape schema = .array j attributes → Child j schema
  | values {schema j : Json} {attributes : Json.Entries} :
      shape schema = .map j attributes → Child j schema
  | field {schema j : Json} {name : Text} {attributes field : Json.Entries} {list : List Json} :
      shape schema = .record name attributes → attributes.attr? "fields" = some (.arr list) →
      .obj field ∈ list → field.attr? "type" = some j → Child j schema

/-- A node stands somewhere below another one, or is it. -/
inductive Below : Json → Json → Prop
  | self (schema : Json) : Below schema schema
  | child {schema j i : Json} : Child j schema → Below i j → Below i schema

theorem Child.size_lt {schema j : Json} (h : Child j schema) : j.size < schema.size := by
  cases h with
  | member hs hj =>
    have hle := Json.size_le_sizeOfItems hj
    rw [eq_arr_of_shape hs, Json.size]
    omega
  | inner hs => exact size_lt_of_wrapper hs
  | items hs => exact size_lt_of_array hs
  | values hs => exact size_lt_of_map hs
  | field hs hl hf ht =>
    have hlist := Json.size_lt_of_attr? hl
    have hfield := Json.size_le_sizeOfItems hf
    have htype := Json.size_lt_of_attr? ht
    rw [eq_obj_of_record hs]
    rw [Json.size] at hlist
    omega

/-- What holds of a node as soon as it holds of those directly below it holds of every node. -/
theorem induction {P : Json → Prop} (step : ∀ schema, (∀ j, Child j schema → P j) → P schema)
    (schema : Json) : P schema := by
  induction hn : schema.size using Nat.strongRecOn generalizing schema with
  | _ n ih =>
    refine step schema fun j hj => ih j.size ?_ j rfl
    have := hj.size_lt
    omega

theorem Child.below {schema j : Json} (h : Child j schema) : Below j schema :=
  .child h (.self j)

theorem Below.trans {schema j i : Json} (hj : Below j schema) (hi : Below i j) :
    Below i schema := by
  induction hj with
  | self => exact hi
  | child hc _ ih => exact .child hc (ih hi)

/-- Nothing stands below a name. -/
theorem below_str {j : Json} {t : Text} (h : Below j (.str t)) : j = .str t := by
  cases h with
  | self => rfl
  | child hc _ =>
    have hs : shape (.str t) = .name t := rfl
    cases hc <;> simp_all

/-- Below a union stand its members and what is below them. -/
theorem below_arr {j : Json} {members : List Json} (h : Below j (.arr members)) :
    j = .arr members ∨ ∃ i ∈ members, Below j i := by
  cases h with
  | self => exact .inl rfl
  | child hc hj =>
    have hs : shape (.arr members) = .union members := rfl
    cases hc with
    | member hm hi =>
      rw [hs] at hm
      cases hm
      exact .inr ⟨_, hi, hj⟩
    | _ => simp_all

/-- Below a record stand the types of its fields and what is below them. -/
theorem below_record {j schema : Json} {name : Text} {attributes : Json.Entries}
    (hs : shape schema = .record name attributes) (h : Below j schema) :
    j = schema ∨ ∃ (list : List Json) (field : Json.Entries) (i : Json),
      attributes.attr? "fields" = some (.arr list) ∧ .obj field ∈ list
        ∧ field.attr? "type" = some i ∧ Below j i := by
  cases h with
  | self => exact .inl rfl
  | child hc hj =>
    cases hc with
    | field hr hl hf ht =>
      rw [hs] at hr
      cases hr
      exact .inr ⟨_, _, _, hl, hf, ht, hj⟩
    | _ => simp_all

end Schema

namespace Conversion

open Schema

theorem fieldList_ok {qualified : Text} {attributes : Json.Entries} {list}
    (h : fieldList qualified attributes = .ok list) :
    attributes.attr? "fields" = some (.arr list.1) := by
  unfold fieldList at h
  split at h
  · rename_i fields hf
    cases h
    exact hf
  · cases h
  · cases h

/-- A record has fields if the attribute for them is a list. -/
theorem fieldList_of_attr? (qualified : Text) {attributes : Json.Entries} {list : List Json}
    (h : attributes.attr? "fields" = some (.arr list)) :
    ∃ l, fieldList qualified attributes = .ok l ∧ l.1 = list := by
  unfold fieldList
  split
  · rename_i hl
    rw [h] at hl
    cases hl
    exact ⟨_, rfl, rfl⟩
  · rename_i hne hl
    rw [h] at hl
    cases hl
    exact absurd rfl (hne list)
  · rename_i hl
    rw [h] at hl
    cases hl

theorem require_ok {attributes : Json.Entries} {wanted place : Text} {j : Json}
    (h : require attributes wanted place = .ok j) : attributes.attr? wanted = some j := by
  unfold require at h
  split at h
  · rename_i i hi
    cases h
    exact hi
  · cases h

theorem fieldParts_ok {record : Text} {field name type : Json} {attributes : Json.Entries}
    (h : fieldParts record field = .ok (attributes, name, type)) :
    field = .obj attributes ∧ attributes.attr? "name" = some name
      ∧ attributes.attr? "type" = some type := by
  unfold fieldParts at h
  split at h
  · rename_i es
    cases hn : require es "name" record with
    | error fault => rw [hn] at h; cases h
    | ok n =>
      rw [hn] at h
      cases ht : require es "type" (record ++ Text.dot :: n.bare) with
      | error fault => simp only [bind, Except.bind, ht] at h; cases h
      | ok t =>
        simp only [bind, Except.bind, ht] at h
        cases h
        exact ⟨rfl, require_ok hn, require_ok ht⟩
  · cases h

theorem fieldParts_of_attr? {record : Text} {attributes : Json.Entries} {fieldName type : Json}
    (hn : attributes.attr? "name" = some fieldName) (ht : attributes.attr? "type" = some type) :
    fieldParts record (.obj attributes) = .ok (attributes, fieldName, type) := by
  have hname : require attributes "name" record = .ok fieldName := by rw [require, hn]
  have htype : require attributes "type" (record ++ Text.dot :: fieldName.bare) = .ok type := by
    rw [require, ht]
  simp only [fieldParts, hname, htype, bind, Except.bind]
  rfl

/-- The type of a field stands directly below its record. -/
theorem child_of_field {schema field fieldName type : Json} {name record : Text}
    {attributes fieldAttributes : Json.Entries} {list : List Json}
    (hs : shape schema = .record name attributes)
    (hl : attributes.attr? "fields" = some (.arr list)) (hf : field ∈ list)
    (hp : fieldParts record field = .ok (fieldAttributes, fieldName, type)) :
    Child type schema := by
  obtain ⟨rfl, -, ht⟩ := fieldParts_ok hp
  exact .field hs hl hf ht

end Conversion

end AvroJsonSchema
