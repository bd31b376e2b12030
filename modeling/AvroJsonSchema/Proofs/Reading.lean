import AvroJsonSchema.Proofs.AvroTypes
import AvroJsonSchema.Proofs.Kinds

/-!
# Reading nodes as types

The types that nodes mean, with one equation for each shape of a node, and what the kind of a node
and the question whether it admits null have to do with its type.

* **`AvroType.read_of_record`** and its siblings: the type that a node of a shape means.
* **`AvroType.read_of_primitive_kind`**: a node of a primitive kind means that type.
* **`AvroType.kind_of_read_null`**: a node that means a type of the family of null has the kind of
  null.
* **`AvroType.not_admitsNull`**: what the question says no to admits no null.
-/

namespace AvroJsonSchema

namespace Scope

/-- A name means a primitive type or what it has been defined as. -/
theorem meaning?_cases {scope : Scope} {name enclosing : Text} {t : AvroType}
    (h : scope.meaning? name enclosing = some t) :
    (∃ p, Primitive.ofText? name = some p ∧ t = .primitive p)
      ∨ (Primitive.ofText? name = none
        ∧ ∃ (qualified : Text) (meaning : NamedType), t = meaning.type qualified) := by
  unfold meaning? at h
  split at h
  · rename_i p hp
    cases h
    exact .inl ⟨p, hp, rfl⟩
  · rename_i hp
    obtain ⟨qualified, -, hq⟩ := List.exists_of_findSome?_eq_some h
    obtain ⟨meaning, -, rfl⟩ := Option.map_eq_some_iff.1 hq
    exact .inr ⟨hp, qualified, meaning, rfl⟩

end Scope

/-- What has been defined is neither a union nor of the family of null. -/
theorem NamedType.family?_type (meaning : NamedType) (qualified : Text) :
    (meaning.type qualified).family? = some .object
      ∨ (meaning.type qualified).family? = some .textual := by
  cases meaning with
  | record => exact .inl rfl
  | enum symbols => exact .inr rfl
  | fixed => exact .inr rfl

namespace AvroType

open Schema Conversion

variable {schema : Json} {enclosing name : Text} {attributes : Json.Entries} {scope : Scope}

/-! ### The type of a node by its shape -/

theorem read_of_malformed {fault : SchemaFault} (h : shape schema = .malformed fault) :
    read schema enclosing scope = none := by
  rw [read]
  split <;> rename_i hs <;> rw [h] at hs <;> cases hs

theorem read_of_union {members : List Json} (h : shape schema = .union members) :
    read schema enclosing scope =
      (readMembers members enclosing scope).map fun r => (.union r.1, r.2) := by
  rw [read]
  split <;> rename_i hs <;> rw [h] at hs <;> cases hs
  rfl

theorem read_of_name (h : shape schema = .name name) :
    read schema enclosing scope = (scope.meaning? name enclosing).map (·, scope) := by
  rw [read]
  split <;> rename_i hs <;> rw [h] at hs <;> cases hs
  rfl

theorem read_of_wrapper {inner : Json} (h : shape schema = .wrapper inner) :
    read schema enclosing scope = read inner enclosing scope := by
  rw [read]
  split <;> rename_i hs <;> rw [h] at hs <;> cases hs
  rfl

theorem read_of_primitive {p : Primitive} (h : shape schema = .primitive p attributes) :
    read schema enclosing scope = some (.primitive p, scope) := by
  rw [read]
  split <;> rename_i hs <;> rw [h] at hs <;> cases hs
  rfl

/-- The scope after an enum or a fixed type, which is defined unless its full name is empty. -/
def afterLeaf (qualified : Text) (meaning : NamedType) (scope : Scope) : Scope :=
  if qualified.isEmpty then scope else scope.define qualified meaning

theorem read_of_leaf {kind : Leaf} (h : shape schema = .leaf kind name attributes) :
    read schema enclosing scope =
      (Name.ofNamed name attributes enclosing).toOption.bind fun qualified =>
        (NamedType.ofLeaf? kind attributes).map fun meaning =>
          (meaning.type qualified, afterLeaf qualified meaning scope) := by
  rw [read]
  split <;> rename_i hs <;> rw [h] at hs <;> cases hs
  cases Name.ofNamed name attributes enclosing with
  | error fault => rfl
  | ok qualified => cases NamedType.ofLeaf? kind attributes <;> rfl

theorem read_of_array {items : Json} (h : shape schema = .array items attributes) :
    read schema enclosing scope =
      (read items enclosing scope).map fun r => (.array r.1, r.2) := by
  rw [read]
  split <;> rename_i hs <;> rw [h] at hs <;> cases hs
  rfl

theorem read_of_map {values : Json} (h : shape schema = .map values attributes) :
    read schema enclosing scope =
      (read values enclosing scope).map fun r => (.map r.1, r.2) := by
  rw [read]
  split <;> rename_i hs <;> rw [h] at hs <;> cases hs
  rfl

theorem read_of_reference (h : shape schema = .reference name attributes) :
    read schema enclosing scope = (scope.meaning? name enclosing).map (·, scope) := by
  rw [read]
  split <;> rename_i hs <;> rw [h] at hs <;> cases hs
  rfl

theorem read_of_record (h : shape schema = .record name attributes) :
    read schema enclosing scope =
      (Name.ofNamed name attributes enclosing).toOption.bind fun qualified =>
        if scope.records.contains qualified then some (.reference qualified, scope)
        else (fieldList qualified attributes).toOption.bind fun list =>
          (readFields qualified list.1 (scope.enter qualified)).map fun r =>
            (.record qualified r.1, r.2) := by
  rw [read]
  split <;> rename_i hs <;> rw [h] at hs <;> cases hs
  cases Name.ofNamed name attributes enclosing with
  | error fault => rfl
  | ok qualified =>
    cases hq : scope.records.contains qualified with
    | true =>
      simp only [Except.toOption, Option.bind_eq_bind, Option.bind_some, hq, if_true]
      rfl
    | false =>
      cases hl : fieldList qualified attributes with
      | error fault =>
        simp only [Except.toOption, Option.bind_eq_bind, Option.bind_some, hq, Bool.false_eq_true,
          if_false, hl]
        rfl
      | ok list =>
        simp only [Except.toOption, Option.bind_eq_bind, Option.bind_some, hq, Bool.false_eq_true,
          if_false, hl]
        cases readFields qualified list.1 (scope.enter qualified) <;> rfl

/-! ### Members and fields -/

theorem readMembers_nil : readMembers [] enclosing scope = some ([], scope) := by
  rw [readMembers]

theorem readMembers_cons {j : Json} {js : List Json} {t : AvroType} {scope' scope'' : Scope}
    {ts : List AvroType} (h : read j enclosing scope = some (t, scope'))
    (hs : readMembers js enclosing scope' = some (ts, scope'')) :
    readMembers (j :: js) enclosing scope = some (t :: ts, scope'') := by
  rw [readMembers, h]
  simp [hs]

/-- A type that some nodes mean is the type of one of them. -/
theorem mem_of_readMembers {nodes : List Json} {ts : List AvroType} {scope' : Scope}
    (h : readMembers nodes enclosing scope = some (ts, scope')) :
    ∀ t ∈ ts, ∃ j ∈ nodes, ∃ before after, read j enclosing before = some (t, after) := by
  induction nodes generalizing ts scope scope' with
  | nil =>
    rw [readMembers_nil] at h
    cases h
    simp
  | cons j js ih =>
    rw [readMembers] at h
    cases hj : read j enclosing scope with
    | none =>
      rw [hj] at h
      cases h
    | some first =>
      cases hjs : readMembers js enclosing first.2 with
      | none =>
        simp [hj, hjs] at h
      | some rest =>
        simp only [hj, hjs, Option.bind_eq_bind, Option.bind_some, Option.pure_def, Option.some.injEq,
          Prod.mk.injEq] at h
        obtain ⟨rfl, rfl⟩ := h
        intro t ht
        rcases List.mem_cons.1 ht with rfl | ht
        · exact ⟨j, List.mem_cons_self, scope, first.2, hj⟩
        · obtain ⟨i, hi, hread⟩ := ih hjs t ht
          exact ⟨i, List.mem_cons_of_mem _ hi, hread⟩

theorem readFields_nil {record : Text} : readFields record [] scope = some ([], scope) := by
  rw [readFields]

theorem readFields_cons {record : Text} {field fieldName type : Json} {more : List Json}
    {key : Json.Key} {t : AvroType} {scope' scope'' : Scope} {rest : List (Json.Key × AvroType)}
    (hp : fieldParts record field = .ok (attributes, fieldName, type))
    (ht : read type (Name.namespaceOf record) scope = some (t, scope'))
    (hk : fieldName.toKey? = some key)
    (hr : readFields record more scope' = some (rest, scope'')) :
    readFields record (field :: more) scope = some ((key, t) :: rest, scope'') := by
  rw [readFields]
  split <;> rename_i he <;> rw [hp] at he <;> cases he
  simp [ht, hk, hr]

/-! ### Kinds and null -/

/-- A node of a primitive kind means that type. -/
theorem read_of_primitive_kind {t : Text} {p : Primitive} (h : kind schema = .ok (.str t))
    (hp : Primitive.ofText? t = some p) :
    read schema enclosing scope = some (.primitive p, scope) := by
  induction schema using Schema.induction with
  | step schema ih =>
    rcases kind_cases h with ⟨_, -, hk⟩ | ⟨rfl, -⟩ | ⟨attributes, rfl, ht, -⟩ | ⟨inner, hs, hk⟩
    · rw [Json.str.inj hk] at hp
      cases hp
    · have hs : shape (.str t) = .name t := rfl
      rw [read_of_name hs, Scope.meaning?, hp]
      rfl
    · exact read_of_primitive (shape_of_primitive ht hp)
    · rw [read_of_wrapper hs]
      exact ih inner (.inner hs) hk

/-- Members that are all null mean null, and define nothing. -/
theorem readMembers_of_nulls {members : List Json} (h : nonNull members = .ok []) :
    ∃ ts, readMembers members enclosing scope = some (ts, scope) ∧ ∀ s ∈ ts, s = .primitive .null := by
  induction members with
  | nil => exact ⟨[], readMembers_nil, by simp⟩
  | cons j js ih =>
    obtain ⟨k, more, hk, hmore, hrest⟩ := nonNull_cons_ok h
    split at hrest
    · rename_i hnull
      cases hrest
      rw [eq_null_of_isNullKind hnull] at hk
      obtain ⟨ts, hts, hall⟩ := ih hmore
      refine ⟨.primitive .null :: ts, ?_, ?_⟩
      · exact readMembers_cons (read_of_primitive_kind hk rfl) hts
      · intro s hs
        rcases List.mem_cons.1 hs with rfl | hs
        · rfl
        · exact hall s hs
    · cases hrest

/-- Members of which one is not null mean what that one means, beside null. -/
theorem readMembers_of_nullable {members : List Json} {member : Json} {t : AvroType} {scope' : Scope}
    (h : nonNull members = .ok [member]) (hr : read member enclosing scope = some (t, scope')) :
    ∃ ts, readMembers members enclosing scope = some (ts, scope') ∧ t ∈ ts
      ∧ ∀ s ∈ ts, s = t ∨ s = .primitive .null := by
  induction members with
  | nil => cases h
  | cons j js ih =>
    obtain ⟨k, more, hk, hmore, hrest⟩ := nonNull_cons_ok h
    split at hrest
    · rename_i hnull
      rw [← hrest] at hmore
      rw [eq_null_of_isNullKind hnull] at hk
      obtain ⟨ts, hts, hmem, hall⟩ := ih hmore
      refine ⟨.primitive .null :: ts, ?_, List.mem_cons_of_mem _ hmem, ?_⟩
      · exact readMembers_cons (read_of_primitive_kind hk rfl) hts
      · intro s hs
        rcases List.mem_cons.1 hs with rfl | hs
        · exact .inr rfl
        · exact hall s hs
    · cases hrest
      obtain ⟨ts, hts, hall⟩ := readMembers_of_nulls hmore
      refine ⟨t :: ts, readMembers_cons hr hts, List.mem_cons_self, ?_⟩
      intro s hs
      rcases List.mem_cons.1 hs with rfl | hs
      · exact .inl rfl
      · exact .inr (hall s hs)

/-- A node means a union as one, what the type that it wraps means, a primitive type by its kind, or
a type that admits no null. -/
theorem read_cases {t : AvroType} {scope' : Scope}
    (h : read schema enclosing scope = some (t, scope')) :
    (∃ members ts, shape schema = .union members ∧ t = .union ts
        ∧ readMembers members enclosing scope = some (ts, scope'))
      ∨ (∃ inner, shape schema = .wrapper inner ∧ read inner enclosing scope = some (t, scope'))
      ∨ (∃ p, t = .primitive p ∧ kind schema = .ok (.str p.text))
      ∨ t.family? = some .array ∨ t.family? = some .object ∨ t.family? = some .textual := by
  have hname : ∀ name, scope.meaning? name enclosing = some t →
      (∃ p, t = .primitive p ∧ Primitive.ofText? name = some p)
        ∨ t.family? = some .object ∨ t.family? = some .textual := by
    intro name hm
    rcases Scope.meaning?_cases hm with ⟨p, hp, rfl⟩ | ⟨-, qualified, meaning, rfl⟩
    · exact .inl ⟨p, rfl, hp⟩
    · exact .inr (meaning.family?_type qualified)
  cases hs : shape schema with
  | malformed fault =>
    rw [read_of_malformed hs] at h
    cases h
  | union members =>
    rw [read_of_union hs] at h
    obtain ⟨r, hr, he⟩ := Option.map_eq_some_iff.1 h
    cases he
    exact .inl ⟨members, _, rfl, rfl, hr⟩
  | wrapper inner =>
    rw [read_of_wrapper hs] at h
    exact .inr (.inl ⟨inner, rfl, h⟩)
  | name name =>
    rw [read_of_name hs] at h
    obtain ⟨_, hm, he⟩ := Option.map_eq_some_iff.1 h
    cases he
    rcases hname name hm with ⟨p, rfl, hp⟩ | hf
    · refine .inr (.inr (.inl ⟨p, rfl, ?_⟩))
      rw [eq_str_of_shape hs, Primitive.text_of_ofText? hp]
      exact kind_of_plain trivial
    · exact .inr (.inr (.inr (.inr hf)))
  | primitive p attributes =>
    obtain ⟨es, rfl, rfl⟩ := fits_of_shape hs (by simp) (by simp) (by simp)
    rw [read_of_primitive hs] at h
    cases h
    refine .inr (.inr (.inl ⟨p, rfl, ?_⟩))
    rw [kind_of_type (type_of_shape_primitive hs)]
    exact kind_of_plain trivial
  | leaf kind name attributes =>
    rw [read_of_leaf hs] at h
    obtain ⟨qualified, -, hr⟩ := Option.bind_eq_some_iff.1 h
    obtain ⟨meaning, -, he⟩ := Option.map_eq_some_iff.1 hr
    cases he
    exact .inr (.inr (.inr (.inr (meaning.family?_type qualified))))
  | array items attributes =>
    rw [read_of_array hs] at h
    obtain ⟨r, -, he⟩ := Option.map_eq_some_iff.1 h
    cases he
    exact .inr (.inr (.inr (.inl rfl)))
  | map values attributes =>
    rw [read_of_map hs] at h
    obtain ⟨r, -, he⟩ := Option.map_eq_some_iff.1 h
    cases he
    exact .inr (.inr (.inr (.inr (.inl rfl))))
  | reference name attributes =>
    obtain ⟨es, rfl, rfl⟩ := fits_of_shape hs (by simp) (by simp) (by simp)
    rw [read_of_reference hs] at h
    obtain ⟨_, hm, he⟩ := Option.map_eq_some_iff.1 h
    cases he
    rcases hname name hm with ⟨p, -, hp⟩ | hf
    · rw [ofText?_of_shape_reference hs] at hp
      cases hp
    · exact .inr (.inr (.inr (.inr hf)))
  | record name attributes =>
    rw [read_of_record hs] at h
    obtain ⟨qualified, -, hr⟩ := Option.bind_eq_some_iff.1 h
    refine .inr (.inr (.inr (.inr (.inl ?_))))
    split at hr
    · cases hr
      rfl
    · obtain ⟨list, -, hr⟩ := Option.bind_eq_some_iff.1 hr
      obtain ⟨r, -, he⟩ := Option.map_eq_some_iff.1 hr
      cases he
      rfl

/-- A node that means a type of the family of null has the kind of null. -/
theorem kind_of_read_null {t : AvroType} {scope' : Scope}
    (h : read schema enclosing scope = some (t, scope')) (ht : t.family? = some .null) :
    kind schema = .ok (.str "null") := by
  induction schema using Schema.induction with
  | step schema ih =>
    rcases read_cases h with ⟨_, _, -, rfl, -⟩ | ⟨inner, hs, hr⟩ | ⟨p, rfl, hk⟩ | hf | hf | hf
    · cases ht
    · obtain ⟨es, rfl, hty⟩ := fits_of_shape hs (by simp) (by simp) (by simp)
      rw [kind_of_type hty]
      exact ih inner (.inner hs) hr
    · cases p <;> cases ht
      exact hk
    all_goals
      rw [hf] at ht
      cases ht

/-- What the question whether a node admits null says no to means a type that admits no null. -/
theorem not_admitsNull {t : AvroType} {scope' : Scope}
    (h : read schema enclosing scope = some (t, scope')) (hn : isNullable schema = .ok false) :
    ¬t.AdmitsNull := by
  induction schema using Schema.induction with
  | step schema ih =>
    intro ha
    rcases read_cases h with ⟨members, ts, hs, rfl, hr⟩ | ⟨inner, hs, hr⟩ | ⟨p, rfl, hk⟩ | hf
    · obtain ⟨j, hj, _, _, hread⟩ := mem_of_readMembers hr _ ha
      rw [eq_arr_of_shape hs, isNullable_arr] at hn
      exact kind_ne_null_of_anyNull hn j hj (kind_of_read_null hread rfl)
    · rw [isNullable_of_wrapper hs] at hn
      exact ih inner (.inner hs) hr hn ha
    · cases ha
      rw [isNullable_of_null hk] at hn
      cases hn
    · cases t <;> simp_all [AdmitsNull, family?, Primitive.family]

end AvroType

end AvroJsonSchema
