import AvroJsonSchema.Proofs.Contexts

/-!
# Kinds and conversions

The kind of a node is found by going down its types, without converting anything.  It tells some of
what the conversion of the node will do: a node of a primitive kind is converted without a look at
the context, a node of an undefined kind fails as the name does, and a node whose kind is no text at
all fails where that value stands.  It also tells which members of a union are null, and whether a
node is.

* **`Schema.kind_cases`**: how a node comes by its kind.
* **`Conversion.outcome_of_primitive_kind`**, **`Conversion.outcome_of_undefined_kind`**,
  **`Conversion.outcome_of_odd_kind`**: what the kind tells.
* **`Conversion.resolveKind_cases`**: the kind of a node through names.
-/

namespace AvroJsonSchema

namespace Schema

/-- A value is neither a list nor an object. -/
def Plain : Json → Prop
  | .arr _ => False
  | .obj _ => False
  | _ => True

theorem kind_arr (members : List Json) : kind (.arr members) = .ok (.str "union") := by
  rw [kind]

theorem kind_of_plain {j : Json} (h : Plain j) : kind j = .ok j := by
  cases j with
  | arr members => exact h.elim
  | obj attributes => exact h.elim
  | _ => rw [kind] <;> simp

theorem kind_of_type {attributes : Json.Entries} {j : Json}
    (h : attributes.attr? "type" = some j) : kind (.obj attributes) = kind j := by
  rw [kind]
  split <;> rename_i hj <;> rw [h] at hj <;> cases hj
  rfl

theorem kind_of_untyped {attributes : Json.Entries} (h : attributes.attr? "type" = none) :
    kind (.obj attributes) = .error (SchemaFault.untypedObject attributes) := by
  rw [kind]
  split <;> rename_i hj <;> rw [h] at hj
  cases hj

/-- The shape of an object by a type that is itself a list or an object. -/
theorem shape_of_inner {attributes : Json.Entries} {j : Json}
    (h : attributes.attr? "type" = some j) (hj : ¬Plain j) :
    shape (.obj attributes) = .wrapper j := by
  show objectShape attributes = _
  unfold objectShape
  rw [h]
  cases j with
  | arr members => rfl
  | obj inner => rfl
  | _ => exact absurd trivial hj

/-- A node has the kind of a union, is its own kind, has it as its type, or has it through the type
that it wraps. -/
theorem kind_cases {schema k : Json} (h : kind schema = .ok k) :
    (∃ members, schema = .arr members ∧ k = .str "union")
      ∨ (schema = k ∧ Plain k)
      ∨ (∃ attributes : Json.Entries, schema = .obj attributes
          ∧ attributes.attr? "type" = some k ∧ Plain k)
      ∨ ∃ inner, shape schema = .wrapper inner ∧ kind inner = .ok k := by
  cases schema with
  | arr members =>
    rw [kind_arr] at h
    cases h
    exact .inl ⟨members, rfl, rfl⟩
  | obj attributes =>
    cases ht : Json.Entries.attr? "type" attributes with
    | none => rw [kind_of_untyped ht] at h; cases h
    | some j =>
      rw [kind_of_type ht] at h
      by_cases hj : Plain j
      · rw [kind_of_plain hj] at h
        cases h
        exact .inr (.inr (.inl ⟨attributes, rfl, ht, hj⟩))
      · exact .inr (.inr (.inr ⟨j, shape_of_inner ht hj, h⟩))
  | _ =>
    rw [kind_of_plain (by trivial)] at h
    cases h
    exact .inr (.inl ⟨rfl, trivial⟩)

theorem kind_of_wrapper {schema inner : Json} (h : shape schema = .wrapper inner) :
    kind schema = kind inner := by
  obtain ⟨es, rfl, ht⟩ := fits_of_shape h (by simp) (by simp) (by simp)
  exact kind_of_type ht

theorem eq_str_of_shape {schema : Json} {name : Text} (h : shape schema = .name name) :
    schema = .str name := by
  rcases shape_cases schema with ⟨_, _, hm⟩ | ⟨n, hs, hm⟩ | ⟨_, hm⟩ | ⟨_, _, hm⟩ <;> rw [h] at hm
  · cases hm
  · cases hm
    exact hs
  · cases hm
  · exact hm.elim

/-! ### Whether a node admits null -/

theorem isNullable_arr (members : List Json) : isNullable (.arr members) = anyNull members := by
  rw [isNullable]

/-- What a wrapper wraps is a list or an object. -/
theorem not_plain_of_wrapper {schema inner : Json} (h : shape schema = .wrapper inner) :
    ¬Plain inner := by
  obtain ⟨es, rfl, -⟩ := fits_of_shape h (by simp) (by simp) (by simp)
  have hs : objectShape es = .wrapper inner := h
  intro hp
  unfold objectShape at hs
  split at hs
  · cases hs
  · cases hs
    exact hp
  · cases hs
    exact hp
  · split at hs
    · cases hs
    · rename_i c _
      cases c <;> first
        | exact absurd hs (namedShape_ne (by simp) (by simp))
        | exact absurd hs (containerShape_ne (by simp) (by simp))
    · cases hs
  · cases hs

theorem isNullable_of_wrapper {schema inner : Json} (h : shape schema = .wrapper inner) :
    isNullable schema = isNullable inner := by
  have hinner := not_plain_of_wrapper h
  obtain ⟨es, rfl, ht⟩ := fits_of_shape h (by simp) (by simp) (by simp)
  rw [isNullable]
  cases inner with
  | arr members =>
    split
    · rename_i hj
      rw [ht] at hj
      cases hj
      rw [isNullable]
    · rename_i hj
      rw [ht] at hj
      cases hj
    · rename_i hlist _
      exact absurd ht (hlist members)
  | obj inner =>
    split
    · rename_i hj
      rw [ht] at hj
      cases hj
    · rename_i hj
      rw [ht] at hj
      cases hj
      rfl
    · rename_i hobject
      exact absurd ht (hobject inner)
  | _ => exact absurd trivial hinner

theorem isNullable_of_plain_type {attributes : Json.Entries} {k : Json}
    (ht : attributes.attr? "type" = some k) (hk : Plain k) :
    isNullable (.obj attributes) = .ok (isNullKind k) := by
  rw [isNullable]
  split
  · rename_i hj
    rw [ht] at hj
    cases hj
    exact hk.elim
  · rename_i hj
    rw [ht] at hj
    cases hj
    exact hk.elim
  · rw [kind_of_type ht, kind_of_plain hk]
    rfl

theorem isNullable_of_untyped {attributes : Json.Entries} (h : attributes.attr? "type" = none) :
    isNullable (.obj attributes) = .error (SchemaFault.untypedObject attributes) := by
  rw [isNullable]
  split
  · rename_i hj
    rw [h] at hj
    cases hj
  · rename_i hj
    rw [h] at hj
    cases hj
  · rw [kind_of_untyped h]
    rfl

/-- A node of the kind of null admits null. -/
theorem isNullable_of_null {schema : Json} (h : kind schema = .ok (.str "null")) :
    isNullable schema = .ok true := by
  induction schema using Schema.induction with
  | step schema ih =>
    rcases kind_cases h with ⟨_, -, hk⟩ | ⟨rfl, -⟩ | ⟨attributes, rfl, ht, -⟩ | ⟨inner, hs, hk⟩
    · cases hk
    · rw [isNullable]
      · rfl
      · simp
      · simp
    · exact isNullable_of_plain_type ht (by trivial)
    · rw [isNullable_of_wrapper hs]
      exact ih inner (.inner hs) hk

theorem anyNull_cons {j : Json} {js : List Json} {k : Json} (h : kind j = .ok k) :
    anyNull (j :: js) = if isNullKind k then .ok true else anyNull js := by
  rw [anyNull, h]
  rfl

/-- Where no member is null, no member has the kind of null. -/
theorem kind_ne_null_of_anyNull {members : List Json} (h : anyNull members = .ok false) :
    ∀ j ∈ members, kind j ≠ .ok (.str "null") := by
  induction members with
  | nil => simp
  | cons i is ih =>
    intro j hj hk
    cases hi : kind i with
    | error fault =>
      rw [anyNull, hi] at h
      cases h
    | ok k =>
      rw [anyNull_cons hi] at h
      split at h
      · cases h
      · rename_i hnull
        rcases List.mem_cons.1 hj with rfl | hj
        · rw [hi] at hk
          cases hk
          exact hnull rfl
        · exact ih h j hj hk

/-- An object of a primitive type has the shape of one. -/
theorem shape_of_primitive {attributes : Json.Entries} {t : Text} {p : Primitive}
    (h : attributes.attr? "type" = some (.str t)) (hp : Primitive.ofText? t = some p) :
    shape (.obj attributes) = .primitive p attributes := by
  have ht : TypeName.ofText t = .primitive p := by rw [TypeName.ofText, hp]
  show objectShape attributes = _
  unfold objectShape
  rw [h]
  simp only [ht]

/-- An object whose type is no built-in one has the shape of a reference. -/
theorem shape_of_defined {attributes : Json.Entries} {t name : Text}
    (h : attributes.attr? "type" = some (.str t)) (ht : TypeName.ofText t = .defined name) :
    shape (.obj attributes) = .reference t attributes := by
  show objectShape attributes = _
  unfold objectShape
  rw [h]
  simp only [ht, ofText_defined ht]

theorem ofText?_of_defined {t name : Text} (h : TypeName.ofText t = .defined name) :
    Primitive.ofText? t = none := by
  unfold TypeName.ofText at h
  split at h
  · cases h
  · assumption

/-- Only an object of a primitive type has the shape of one. -/
theorem type_of_shape_primitive {attributes es : Json.Entries} {p : Primitive}
    (h : objectShape attributes = .primitive p es) :
    attributes.attr? "type" = some (.str p.text) := by
  unfold objectShape at h
  split at h
  · cases h
  · cases h
  · cases h
  · rename_i t ht
    split at h
    · rename_i q hq
      cases h
      rw [ht, ofText_primitive hq]
    · rename_i c _
      cases c <;> first
        | exact absurd h (namedShape_ne (by simp) (by simp))
        | exact absurd h (containerShape_ne (by simp) (by simp))
    · cases h
  · cases h

/-- An annotated reference has the name as its type. -/
theorem type_of_reference {attributes es : Json.Entries} {name : Text}
    (h : objectShape attributes = .reference name es) :
    attributes.attr? "type" = some (.str name) ∧ TypeName.ofText name = .defined name := by
  unfold objectShape at h
  split at h
  · cases h
  · cases h
  · cases h
  · rename_i t ht
    split at h
    · cases h
    · rename_i c _
      cases c <;> first
        | exact absurd h (namedShape_ne (by simp) (by simp))
        | exact absurd h (containerShape_ne (by simp) (by simp))
    · rename_i defined hd
      cases h
      obtain rfl := ofText_defined hd
      exact ⟨ht, hd⟩
  · cases h

/-- The name in the shape of a reference is no primitive type. -/
theorem ofText?_of_shape_reference {attributes es : Json.Entries} {name : Text}
    (h : objectShape attributes = .reference name es) : Primitive.ofText? name = none :=
  ofText?_of_defined (type_of_reference h).2

end Schema

namespace Conversion

open Schema Step

variable {schema : Json} (setup : Setup) (enclosing : Text) (c : Context)

/-- A node of a primitive kind is converted without a look at the context. -/
theorem outcome_of_primitive_kind {t : Text} {p : Primitive} (h : kind schema = .ok (.str t))
    (hp : Primitive.ofText? t = some p) :
    ∃ es, outcome (node setup schema enclosing) c = (.ok es, c) := by
  induction schema using Schema.induction with
  | step schema ih =>
    rcases kind_cases h with ⟨_, -, hk⟩ | ⟨rfl, -⟩ | ⟨attributes, rfl, ht, -⟩ | ⟨inner, hs, hk⟩
    · rw [Json.str.inj hk] at hp
      cases hp
    · have hs : shape (.str t) = .name t := rfl
      rw [node_of_name hs, outcome_typeName, hp]
      exact ⟨_, rfl⟩
    · rw [node_of_primitive (shape_of_primitive ht hp)]
      exact ⟨_, rfl⟩
    · rw [node_of_wrapper hs]
      exact ih inner (.inner hs) hk

/-- A node whose kind is a name without a meaning fails as the name does. -/
theorem outcome_of_undefined_kind {t name : Text} {fault : Fault}
    (h : kind schema = .ok (.str t)) (ht : TypeName.ofText t = .defined name)
    (hu : t ≠ Text.ofString "union") (hr : c.resolve t enclosing = .error fault) :
    outcome (node setup schema enclosing) c = (.error fault, c) := by
  have hname : outcome (typeName setup t enclosing) c = (.error fault, c) := by
    rw [outcome_typeName, ofText?_of_defined ht, hr]
  induction schema using Schema.induction with
  | step schema ih =>
    rcases kind_cases h with ⟨_, -, hk⟩ | ⟨rfl, -⟩ | ⟨attributes, rfl, hty, -⟩ | ⟨inner, hs, hk⟩
    · exact absurd (Json.str.inj hk) hu
    · have hs : shape (.str t) = .name t := rfl
      rw [node_of_name hs]
      exact hname
    · rw [node_of_reference (shape_of_defined hty ht), outcome_map, hname]
      rfl
    · rw [node_of_wrapper hs]
      exact ih inner (.inner hs) hk

/-- The faults of a value that stands where a schema or a type should. -/
def oddFaults (j : Json) : List SchemaFault :=
  [.unexpectedConstruct j, .invalidType j]

/-- A node whose kind is no text fails where that value stands. -/
theorem outcome_of_odd_kind {k : Json} (h : kind schema = .ok k) (hk : ∀ t, k ≠ .str t) :
    ∃ fault ∈ oddFaults k, outcome (node setup schema enclosing) c = (.error (.schema fault), c) := by
  induction schema using Schema.induction with
  | step schema ih =>
    rcases kind_cases h with ⟨_, -, hu⟩ | ⟨rfl, hp⟩ | ⟨attributes, rfl, ht, hp⟩ | ⟨inner, hs, hi⟩
    · exact absurd hu (hk _)
    · refine ⟨.unexpectedConstruct schema, List.mem_cons_self, ?_⟩
      have hs : shape schema = .malformed (.unexpectedConstruct schema) := by
        cases schema with
        | str t => exact absurd rfl (hk t)
        | arr members => exact hp.elim
        | obj attributes => exact hp.elim
        | _ => rfl
      rw [node_of_malformed hs]
      rfl
    · refine ⟨.invalidType k, List.mem_cons_of_mem _ List.mem_cons_self, ?_⟩
      have hs : shape (.obj attributes) = .malformed (.invalidType k) := by
        show objectShape attributes = _
        unfold objectShape
        rw [ht]
        cases k with
        | str t => exact absurd rfl (hk t)
        | arr members => exact hp.elim
        | obj attributes => exact hp.elim
        | _ => rfl
      rw [node_of_malformed hs]
      rfl
    · rw [node_of_wrapper hs]
      exact ih inner (.inner hs) hi

/-- The kind that a name stands for is the one of a definition, and no primitive one. -/
theorem resolveKind_of_defined {c : Context} (hc : c.Sound) (enclosing : Text) {schema : Json}
    {t name : Text} (hk : kind schema = .ok (.str t)) (ht : TypeName.ofText t = .defined name)
    (hu : t ≠ Text.ofString "union") :
    (∃ fault, c.resolve t enclosing = .error fault
        ∧ c.resolveKind schema enclosing = .error fault)
      ∨ ∃ k, c.resolveKind schema enclosing = .ok k ∧ primitiveOfKind? k = none := by
  have hname := ofText_defined ht
  unfold Context.resolveKind
  simp only [hk, bind, Except.bind, hu, if_false, ht, hname]
  cases hr : c.resolve t enclosing with
  | error fault => exact .inl ⟨fault, rfl, rfl⟩
  | ok qualified =>
    refine .inr ?_
    dsimp only
    obtain ⟨attributes, ha⟩ := Context.resolve_ok hr
    have hmem := Table.mem_of_get?_eq_some (Table.sharp_of_lawful _) ha
    obtain ⟨cx, -, hty⟩ := (hc.named_defines _ _ hmem).type
    rw [ha, Option.getD_some, kind_of_type hty, kind_of_plain (by trivial)]
    refine ⟨_, rfl, ?_⟩
    cases cx <;> decide

/-- The kind of a node, through names, is its own if that is a primitive one, or no primitive one at
all; it cannot be told where the kind of the node is a name without a meaning or no text. -/
theorem resolveKind_cases {c : Context} (hc : c.Sound) (enclosing : Text) {schema k : Json}
    (hk : kind schema = .ok k) :
    (∃ t p, k = .str t ∧ Primitive.ofText? t = some p
        ∧ c.resolveKind schema enclosing = .ok (.str t))
      ∨ (∃ k', c.resolveKind schema enclosing = .ok k' ∧ primitiveOfKind? k' = none)
      ∨ (∃ t name fault, k = .str t ∧ TypeName.ofText t = .defined name
        ∧ t ≠ Text.ofString "union" ∧ c.resolve t enclosing = .error fault
        ∧ c.resolveKind schema enclosing = .error fault)
      ∨ ((∀ t, k ≠ .str t) ∧ c.resolveKind schema enclosing = .error (.unusableReference k)) := by
  by_cases hstr : ∃ t, k = .str t
  · obtain ⟨t, rfl⟩ := hstr
    by_cases hun : t = Text.ofString "union"
    · refine .inr (.inl ⟨.str t, ?_, ?_⟩)
      · simp only [Context.resolveKind, hk, bind, Except.bind, hun, if_true]
        rfl
      · rw [hun]
        rfl
    · cases ht : TypeName.ofText t with
      | primitive p =>
        refine .inl ⟨t, p, rfl, ?_, ?_⟩
        · rw [ofText_primitive ht, Primitive.ofText?_text]
        · simp only [Context.resolveKind, hk, bind, Except.bind, hun, if_false, ht]
          rfl
      | complex cx =>
        refine .inr (.inl ⟨.str t, ?_, ?_⟩)
        · simp only [Context.resolveKind, hk, bind, Except.bind, hun, if_false, ht]
          rfl
        · rw [ofText_complex ht]
          cases cx <;> decide
      | defined name =>
        rcases resolveKind_of_defined hc enclosing hk ht hun with ⟨fault, hr, hrk⟩ | hdefined
        · exact .inr (.inr (.inl ⟨t, name, fault, rfl, ht, hun, hr, hrk⟩))
        · exact .inr (.inl hdefined)
  · refine .inr (.inr (.inr ⟨fun t ht => hstr ⟨t, ht⟩, ?_⟩))
    simp only [Context.resolveKind, hk, bind, Except.bind]
    cases k with
    | str t => exact absurd ⟨t, rfl⟩ hstr
    | _ => rfl

/-- A node whose kind, through names, is a primitive one has that kind itself. -/
theorem kind_of_resolveKind {c : Context} (hc : c.Sound) {enclosing : Text} {schema k : Json}
    {p : Primitive} (hr : c.resolveKind schema enclosing = .ok k) (hp : primitiveOfKind? k = some p) :
    ∃ t, kind schema = .ok (.str t) ∧ Primitive.ofText? t = some p := by
  cases hk : kind schema with
  | error fault =>
    simp only [Context.resolveKind, hk, bind, Except.bind] at hr
    cases hr
  | ok j =>
    rcases resolveKind_cases hc enclosing hk with
      ⟨t, q, rfl, hq, hrk⟩ | ⟨k', hrk, hnone⟩ | ⟨_, _, _, -, -, -, -, hrk⟩ | ⟨-, hrk⟩ <;>
      rw [hrk] at hr <;> cases hr
    · exact ⟨t, rfl, hp⟩
    · rw [hnone] at hp
      cases hp

/-- A kind that is a primitive one is looked up nowhere. -/
theorem resolveKind_of_primitive {c : Context} {enclosing : Text} {schema : Json} {t : Text}
    {p : Primitive} (hk : kind schema = .ok (.str t)) (hp : Primitive.ofText? t = some p) :
    c.resolveKind schema enclosing = .ok (.str t) := by
  have hunion : t ≠ Text.ofString "union" := by
    rintro rfl
    cases hp
  have hname : TypeName.ofText t = .primitive p := by rw [TypeName.ofText, hp]
  simp only [Context.resolveKind, hk, bind, Except.bind, hunion, if_false, hname]
  rfl

/-- A node whose kind, through names, is no primitive one is of no primitive kind itself. -/
theorem not_primitive_of_resolveKind {c : Context} {enclosing : Text} {schema k k' : Json}
    (hk : kind schema = .ok k) (hr : c.resolveKind schema enclosing = .ok k')
    (hp : primitiveOfKind? k' = none) : primitiveOfKind? k = none := by
  cases k with
  | str t =>
    cases hq : Primitive.ofText? t with
    | none => exact hq
    | some q =>
      rw [resolveKind_of_primitive hk hq] at hr
      cases hr
      cases hq.symm.trans hp
  | _ => rfl

/-- The kind of a node that is converted can be told, and it is no primitive one if the node is not of
a primitive kind itself. -/
theorem resolveKind_of_converted {setup : Setup} {enclosing : Text} {c c' : Context} {k : Json}
    {es : Json.Entries} (hc : c.Sound) (hk : kind schema = .ok k) (hp : primitiveOfKind? k = none)
    (hok : outcome (node setup schema enclosing) c = (.ok es, c')) :
    ∃ k', c.resolveKind schema enclosing = .ok k' ∧ primitiveOfKind? k' = none := by
  rcases resolveKind_cases hc enclosing hk with
    ⟨t, p, rfl, ht, -⟩ | ⟨k', hr, hnone⟩ | ⟨t, n, fault, rfl, ht, hu, hr, -⟩ | ⟨hodd, -⟩
  · cases hp.symm.trans ht
  · exact ⟨k', hr, hnone⟩
  · rw [outcome_of_undefined_kind setup enclosing c hk ht hu hr] at hok
    cases hok
  · obtain ⟨fault, -, hfault⟩ := outcome_of_odd_kind setup enclosing c hk hodd
    rw [hfault] at hok
    cases hok

/-! ### The members that are not null -/

theorem nonNull_cons_ok {j : Json} {js rest : List Json} (h : nonNull (j :: js) = .ok rest) :
    ∃ k more, kind j = .ok k ∧ nonNull js = .ok more
      ∧ rest = if isNullKind k then more else j :: more := by
  simp only [nonNull, bind, Except.bind] at h
  cases hk : kind j with
  | error fault => rw [hk] at h; cases h
  | ok k =>
    simp only [hk] at h
    cases hn : nonNull js with
    | error fault => rw [hn] at h; cases h
    | ok more =>
      rw [hn] at h
      exact ⟨k, more, rfl, rfl, (Except.ok.inj h).symm⟩

theorem nonNull_cons {j : Json} {js more : List Json} {k : Json} (hk : kind j = .ok k)
    (hmore : nonNull js = .ok more) :
    nonNull (j :: js) = .ok (if isNullKind k then more else j :: more) := by
  simp only [nonNull, hk, hmore, bind, Except.bind]
  rfl

/-- The members of a union have kinds if those that are not null can be told. -/
theorem kind_of_nonNull {members rest : List Json} (h : nonNull members = .ok rest) :
    ∀ j ∈ members, ∃ k, kind j = .ok k := by
  induction members generalizing rest with
  | nil => simp
  | cons i is ih =>
    obtain ⟨k, more, hk, hmore, -⟩ := nonNull_cons_ok h
    intro j hj
    rcases List.mem_cons.1 hj with rfl | hj
    · exact ⟨k, hk⟩
    · exact ih hmore j hj

theorem eq_null_of_isNullKind {k : Json} (h : isNullKind k = true) : k = .str "null" := by
  cases k with
  | str t =>
    have ht : t = Primitive.null.text := by simpa [isNullKind] using h
    rw [ht]
    rfl
  | _ => cases h

/-- The members that are not null have not the kind of null. -/
theorem kind_ne_null_of_nonNull {members rest : List Json} (h : nonNull members = .ok rest) :
    ∀ j ∈ rest, kind j ≠ .ok (.str "null") := by
  induction members generalizing rest with
  | nil =>
    cases h
    simp
  | cons i is ih =>
    obtain ⟨k, more, hk, hmore, rfl⟩ := nonNull_cons_ok h
    intro j hj
    split at hj
    · exact ih hmore j hj
    · rename_i hnull
      rcases List.mem_cons.1 hj with rfl | hj
      · intro hn
        rw [hk] at hn
        cases hn
        exact hnull rfl
      · exact ih hmore j hj

theorem kind_null_of_nonNull {members : List Json} (h : nonNull members = .ok []) :
    ∀ j ∈ members, kind j = .ok (.str "null") := by
  induction members with
  | nil => simp
  | cons i is ih =>
    obtain ⟨k, more, hk, hmore, heq⟩ := nonNull_cons_ok h
    split at heq
    · rename_i hnull
      intro j hj
      rcases List.mem_cons.1 hj with rfl | hj
      · rw [hk, eq_null_of_isNullKind hnull]
      · exact ih (heq ▸ hmore) j hj
    · cases heq

/-- If one member of a union is not null, the members around it are. -/
theorem split_of_nonNull {members : List Json} {member : Json} (h : nonNull members = .ok [member]) :
    ∃ before after, members = before ++ member :: after
      ∧ ∀ j ∈ before ++ after, kind j = .ok (.str "null") := by
  induction members with
  | nil => cases h
  | cons i is ih =>
    obtain ⟨k, more, hk, hmore, heq⟩ := nonNull_cons_ok h
    split at heq
    · rename_i hnull
      obtain ⟨before, after, rfl, hnulls⟩ := ih (heq ▸ hmore)
      refine ⟨i :: before, after, rfl, fun j hj => ?_⟩
      rcases List.mem_cons.1 hj with rfl | hj
      · rw [hk, eq_null_of_isNullKind hnull]
      · exact hnulls j hj
    · cases heq
      exact ⟨[], is, rfl, kind_null_of_nonNull hmore⟩

theorem nonNull_of_unionForm {members : List Json} {member : Json}
    (h : unionForm members = .nullable member) : nonNull members = .ok [member] := by
  unfold unionForm at h
  split at h
  · cases h
  · rename_i hm
    split at h
    · cases h
    · cases h
      exact hm
  · cases h

theorem nonNull_of_unionForm_fault {members : List Json} {fault : Fault}
    (h : unionForm members = .fault fault) : nonNull members = .error fault := by
  unfold unionForm at h
  split at h
  · cases h
    assumption
  · split at h <;> cases h
  · cases h

theorem length_of_unionForm {members : List Json} {member : Json}
    (h : unionForm members = .nullable member) : members.length ≠ 1 := by
  unfold unionForm at h
  split at h
  · cases h
  · split at h
    · cases h
    · assumption
  · cases h

/-- The one member of a nullable union that is not null has a kind. -/
theorem kind_of_unionForm {members : List Json} {member : Json}
    (h : unionForm members = .nullable member) : ∃ k, kind member = .ok k :=
  kind_of_nonNull (nonNull_of_unionForm h) member (mem_of_unionForm h)

end Conversion

end AvroJsonSchema
