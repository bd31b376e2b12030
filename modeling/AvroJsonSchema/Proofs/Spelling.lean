import AvroJsonSchema.Proofs.Completion

/-!
# Full names spelled out

The name of a definition and a reference to it may be written short: the rest of the full name is
told by the namespace around them.  A walk through a schema, which knows the types that it has met so
far, writes the full name in the place of each of them.  Nothing else changes, so that a node that is
spelled out has the shape, the kind and the custom properties that it had.

* **`Spelling.Met`**, **`Spelling.Met.fullName`**: the types met so far, and what a name refers to.
* **`Spelling.node`**, **`Spelling.out`**: the walk, and a whole schema spelled out.
* **`Spelling.Alike`**: attributes differ where a spelling changes them alone.
* **`Spelling.kind_node`**, **`Spelling.isNullable_node`**, **`Spelling.unionForm_nodes_of_nullable`**: what
  a node that is spelled out has in common with the node.
-/

namespace AvroJsonSchema

namespace Spelling

open Schema

/-! ### What a name refers to -/

/-- The named types that have been met: the records that have been entered, and all that have a
name. -/
structure Met where
  records : List Text
  types : List Text

namespace Met

/-- Nothing met yet. -/
def nothing : Met := ⟨[], []⟩

/-- A record is entered. -/
def enter (met : Met) (name : Text) : Met :=
  ⟨met.records ++ [name], met.types ++ [name]⟩

/-- An enum or a fixed type is met; under an empty name it has none. -/
def define (met : Met) (name : Text) : Met :=
  if name.isEmpty then met else { met with types := met.types ++ [name] }

/-- The full name of the type that a name refers to: without a dot it is looked for in the namespace
around it first, and then in none. -/
def fullName (met : Met) (name space : Text) : Text :=
  if name.isDotted || space.isEmpty then name
  else if met.types.contains (space ++ Text.dot :: name) then space ++ Text.dot :: name
  else name

/-- The full name in the place of a name; a primitive type has no other name. -/
def spell (met : Met) (name space : Text) : Text :=
  if (Primitive.ofText? name).isSome then name else met.fullName name space

end Met

/-! ### The walk -/

/-- The attributes of a definition under its full name, which does not need a namespace if it has a
dot and needs to be kept out of any other if it has none. -/
def named (name : Text) (attributes : Json.Entries) : Json.Entries :=
  if name.isDotted then (attributes.put "name" name).erase (.text "namespace")
  else (attributes.put "name" name).put "namespace" (.str [])

mutual

/-- A node within a namespace with all names spelled out, and the types met after it. -/
def node (met : Met) (space : Text) (schema : Json) : Json × Met :=
  match schema with
  | .arr members =>
    let spelled := nodes met space members
    (.arr spelled.1, spelled.2)
  | .str name => (.str (met.spell name space), met)
  | .obj attributes =>
    match h : objectShape attributes with
    | .wrapper inner =>
      have : inner.size < (Json.obj attributes).size := size_lt_of_wrapper h
      let spelled := node met space inner
      (.obj (Json.Entries.put "type" spelled.1 attributes), spelled.2)
    | .array items _ =>
      have : items.size < (Json.obj attributes).size := size_lt_of_array h
      let spelled := node met space items
      (.obj (Json.Entries.put "items" spelled.1 attributes), spelled.2)
    | .map values _ =>
      have : values.size < (Json.obj attributes).size := size_lt_of_map h
      let spelled := node met space values
      (.obj (Json.Entries.put "values" spelled.1 attributes), spelled.2)
    | .reference name _ => (.obj (Json.Entries.put "type" (.str (met.spell name space)) attributes), met)
    | .leaf _ _ _ =>
      let name := Naming.fullName attributes space
      (.obj (named name attributes), met.define name)
    | .record _ _ =>
      let name := Naming.fullName attributes space
      if name ∈ met.records then (.obj (named name attributes), met)
      else
        match hl : Json.Entries.attr? "fields" attributes with
        | some (.arr list) =>
          have := Json.size_lt_of_attr? hl
          let spelled := fields (met.enter name) (Naming.innerSpace attributes space) list
          (.obj ((named name attributes).put "fields" (.arr spelled.1)), spelled.2)
        | _ => (.obj (named name attributes), met.enter name)
    | _ => (.obj attributes, met)
  | other => (other, met)
termination_by 2 * schema.size
decreasing_by all_goals simp only [Json.size] at *; omega

/-- Some nodes with all names spelled out, one node after the other. -/
def nodes (met : Met) (space : Text) (list : List Json) : List Json × Met :=
  match list with
  | [] => ([], met)
  | j :: js =>
    have := Json.size_pos j
    let first := node met space j
    let rest := nodes first.2 space js
    (first.1 :: rest.1, rest.2)
termination_by 2 * Json.sizeOfItems list + 1
decreasing_by all_goals simp only [Json.sizeOfItems] at *; omega

/-- The fields of a record with all names in their types spelled out, one field after the other. -/
def fields (met : Met) (space : Text) (list : List Json) : List Json × Met :=
  match list with
  | [] => ([], met)
  | field :: more =>
    have := Json.size_pos field
    match field with
    | .obj attributes =>
      match ht : Json.Entries.attr? "type" attributes with
      | some type =>
        have := Json.size_lt_of_attr? ht
        let first := node met space type
        let rest := fields first.2 space more
        (.obj (Json.Entries.put "type" first.1 attributes) :: rest.1, rest.2)
      | none =>
        let rest := fields met space more
        (.obj attributes :: rest.1, rest.2)
    | other =>
      let rest := fields met space more
      (other :: rest.1, rest.2)
termination_by 2 * Json.sizeOfItems list + 1
decreasing_by all_goals simp only [Json.sizeOfItems] at *; omega

end

/-- A whole schema with all names spelled out. -/
def out (schema : Json) : Json :=
  (node .nothing [] schema).1

/-! ### One step of the walk -/

section Steps

variable {met : Met} {space : Text} {attributes es : Json.Entries}

theorem node_arr (members : List Json) :
    node met space (.arr members) =
      (.arr (nodes met space members).1, (nodes met space members).2) := by
  rw [node]

theorem node_str (name : Text) : node met space (.str name) = (.str (met.spell name space), met) := by
  rw [node]

theorem node_wrapper {inner : Json} (h : objectShape attributes = .wrapper inner) :
    node met space (.obj attributes) =
      (.obj (attributes.put "type" (node met space inner).1), (node met space inner).2) := by
  rw [node]
  split <;> simp_all

theorem node_array {items : Json} (h : objectShape attributes = .array items es) :
    node met space (.obj attributes) =
      (.obj (attributes.put "items" (node met space items).1), (node met space items).2) := by
  rw [node]
  split <;> simp_all

theorem node_map {values : Json} (h : objectShape attributes = .map values es) :
    node met space (.obj attributes) =
      (.obj (attributes.put "values" (node met space values).1), (node met space values).2) := by
  rw [node]
  split <;> simp_all

theorem node_reference {name : Text} (h : objectShape attributes = .reference name es) :
    node met space (.obj attributes) =
      (.obj (attributes.put "type" (.str (met.spell name space))), met) := by
  rw [node]
  split <;> simp_all

theorem node_leaf {kind : Leaf} {name : Text} (h : objectShape attributes = .leaf kind name es) :
    node met space (.obj attributes) =
      (.obj (named (Naming.fullName attributes space) attributes),
        met.define (Naming.fullName attributes space)) := by
  rw [node]
  split <;> simp_all

theorem node_entered {name : Text} (h : objectShape attributes = .record name es)
    (hm : Naming.fullName attributes space ∈ met.records) :
    node met space (.obj attributes) =
      (.obj (named (Naming.fullName attributes space) attributes), met) := by
  rw [node]
  split <;> simp_all

theorem node_record {name : Text} {list : List Json} (h : objectShape attributes = .record name es)
    (hm : Naming.fullName attributes space ∉ met.records)
    (hl : attributes.attr? "fields" = some (.arr list)) :
    node met space (.obj attributes) =
      let spelled := fields (met.enter (Naming.fullName attributes space))
        (Naming.innerSpace attributes space) list
      (.obj ((named (Naming.fullName attributes space) attributes).put "fields" (.arr spelled.1)),
        spelled.2) := by
  rw [node]
  split
  case h_6 =>
    rw [if_neg hm]
    split <;> simp_all
  all_goals simp_all

theorem node_primitive {p : Primitive} (h : objectShape attributes = .primitive p es) :
    node met space (.obj attributes) = (.obj attributes, met) := by
  rw [node]
  split <;> simp_all

theorem nodes_nil : nodes met space [] = ([], met) := by
  rw [nodes]

theorem nodes_cons (j : Json) (js : List Json) :
    nodes met space (j :: js) =
      ((node met space j).1 :: (nodes (node met space j).2 space js).1,
        (nodes (node met space j).2 space js).2) := by
  rw [nodes]

theorem fields_nil : fields met space [] = ([], met) := by
  rw [fields]

theorem fields_cons {type : Json} {more : List Json} (h : attributes.attr? "type" = some type) :
    fields met space (.obj attributes :: more) =
      (.obj (attributes.put "type" (node met space type).1)
          :: (fields (node met space type).2 space more).1,
        (fields (node met space type).2 space more).2) := by
  rw [fields]
  split <;> simp_all

end Steps

/-! ### Attributes that differ where a spelling changes them -/

/-- The attributes that a spelling changes. -/
def changed : List Text :=
  ["type", "name", "namespace", "fields", "items", "values"]

/-- Attributes differ where a spelling changes them alone. -/
structure Alike (attributes spelled : Json.Entries) : Prop where
  attr? : ∀ name ∉ changed, spelled.attr? name = attributes.attr? name
  custom : customProperties spelled = customProperties attributes

variable {attributes spelled : Json.Entries} {name space : Text}

theorem Alike.refl (attributes : Json.Entries) : Alike attributes attributes :=
  ⟨fun _ _ => rfl, rfl⟩

theorem isCustom_of_changed (h : name ∈ changed) : isCustom (.text name) = false := by
  have hall : ∀ n ∈ changed, isCustom (.text n) = false := by decide
  exact hall name h

theorem Alike.put (h : Alike attributes spelled) (hn : name ∈ changed) (value : Json) :
    Alike attributes (spelled.put name value) where
  attr? other ho := by
    have hne : name ≠ other := fun he => ho (he ▸ hn)
    exact (Json.Entries.attr?_put_of_ne hne value spelled).trans (h.attr? other ho)
  custom :=
    (Table.filter_set_of_not (Json.Key.sharp_text name) (isCustom_of_changed hn) value
      spelled).trans h.custom

theorem Alike.erase (h : Alike attributes spelled) (hn : name ∈ changed) :
    Alike attributes (spelled.erase (.text name)) where
  attr? other ho := by
    have hne : Json.Key.text name ≠ .text other := fun he => ho (Json.Key.text.inj he ▸ hn)
    exact (Table.get?_erase_of_ne (Json.Key.sharp_text other) hne spelled).trans (h.attr? other ho)
  custom :=
    (Table.filter_erase_of_not (Json.Key.sharp_text name) (isCustom_of_changed hn) spelled).trans
      h.custom

theorem alike_named (name : Text) (attributes : Json.Entries) :
    Alike attributes (named name attributes) := by
  have hname : Alike attributes (attributes.put "name" name) :=
    (Alike.refl attributes).put (by decide) name
  unfold named
  split
  · exact hname.erase (by decide)
  · exact hname.put (by decide) _

namespace Alike

variable {options : Options}

theorem logicalType? (h : Alike attributes spelled) :
    Schema.logicalType? spelled = Schema.logicalType? attributes := by
  unfold Schema.logicalType?
  rw [h.attr? _ (by decide)]

theorem describe (h : Alike attributes spelled) (keywords : Json.Entries) :
    Keywords.describe spelled keywords = Keywords.describe attributes keywords := by
  unfold Keywords.describe
  rw [h.attr? _ (by decide)]

theorem annotate (h : Alike attributes spelled) (keywords : Json.Entries) :
    Keywords.annotate spelled keywords = Keywords.annotate attributes keywords := by
  unfold Keywords.annotate
  rw [h.describe, h.custom]

theorem decorate (h : Alike attributes spelled) (property : Json.Entries) :
    Keywords.decorate spelled property = Keywords.decorate attributes property := by
  unfold Keywords.decorate
  rw [h.describe, h.attr? _ (by decide)]

theorem ofLogicalType (h : Alike attributes spelled) :
    Keywords.ofLogicalType options spelled = Keywords.ofLogicalType options attributes := by
  unfold Keywords.ofLogicalType
  rw [h.logicalType?]

theorem withType (h : Alike attributes spelled) (type : SchemaType) :
    Keywords.withType options spelled type = Keywords.withType options attributes type := by
  unfold Keywords.withType
  rw [h.ofLogicalType]

theorem arrayKeywords (h : Alike attributes spelled) (inner : Json.Entries) :
    Conversion.arrayKeywords options spelled inner
      = Conversion.arrayKeywords options attributes inner := by
  unfold Conversion.arrayKeywords
  rw [h.annotate, h.withType]

theorem mapKeywords (h : Alike attributes spelled) (inner : Json.Entries) :
    Conversion.mapKeywords options spelled inner
      = Conversion.mapKeywords options attributes inner := by
  unfold Conversion.mapKeywords
  rw [h.annotate, h.withType]

theorem referenceKeywords (h : Alike attributes spelled) (target : Json.Entries) :
    Conversion.referenceKeywords options spelled target
      = Conversion.referenceKeywords options attributes target := by
  unfold Conversion.referenceKeywords
  rw [h.annotate, h.ofLogicalType]

theorem recordKeywords (h : Alike attributes spelled) (qualified : Text)
    (properties : Json.Entries) (required : List Json) :
    Conversion.recordKeywords options qualified spelled properties required
      = Conversion.recordKeywords options qualified attributes properties required := by
  unfold Conversion.recordKeywords Keywords.recordFrame
  rw [h.annotate, h.withType]

/-- An enum or a fixed type that has keywords has the same ones when it is spelled out. -/
theorem leafKeywords (h : Alike attributes spelled) {kind : Leaf} {qualified : Text}
    {keywords : Json.Entries}
    (hk : Conversion.leafKeywords options kind qualified attributes = .ok keywords) :
    Conversion.leafKeywords options kind qualified spelled = .ok keywords := by
  cases kind with
  | fixed =>
    rw [← hk]
    show Except.ok (Keywords.ofScalar options spelled .fixed) = .ok _
    unfold Keywords.ofScalar
    rw [h.logicalType?, h.ofLogicalType]
  | enum =>
    have hsymbols : spelled.attr? "symbols" = attributes.attr? "symbols" := h.attr? _ (by decide)
    rw [← hk]
    show Conversion.enumKeywords options qualified spelled
      = Conversion.enumKeywords options qualified attributes
    unfold Conversion.enumKeywords
    cases hs : Schema.require attributes "symbols" [] with
    | error fault =>
      have hk' : Conversion.enumKeywords options qualified attributes = .ok keywords := hk
      rw [Conversion.enumKeywords, hs] at hk'
      cases hk'
    | ok symbols =>
      have hs' : Schema.require spelled "symbols" [] = .ok symbols := by
        have hattr := Conversion.require_ok hs
        rw [Schema.require, hsymbols, hattr]
      rw [hs', h.withType]

end Alike

/-! ### Full names -/

/-- A name that is spelled out is the name as it was or has a dot. -/
theorem spell_cases (met : Met) (name space : Text) :
    met.spell name space = name
      ∨ (Primitive.ofText? name = none ∧ (met.spell name space).isDotted = true) := by
  unfold Met.spell
  split
  · exact .inl rfl
  · rename_i hp
    unfold Met.fullName
    split
    · exact .inl rfl
    · split
      · exact .inr ⟨by simpa using hp, by simp [Text.isDotted]⟩
      · exact .inl rfl

theorem attr?_named_name (name : Text) (attributes : Json.Entries) :
    (named name attributes).attr? "name" = some (.str name) := by
  unfold named
  split
  · rw [← Json.Entries.attr?_put_self "name" (.str name) attributes]
    exact Table.get?_erase_of_ne (Json.Key.sharp_text _) (by decide) _
  · rw [Json.Entries.attr?_put_of_ne (by decide)]
    exact Json.Entries.attr?_put_self _ _ _

theorem attr?_named_of_ne {other : Text} (hname : Text.ofString "name" ≠ other)
    (hspace : Text.ofString "namespace" ≠ other) (name : Text) (attributes : Json.Entries) :
    (named name attributes).attr? other = attributes.attr? other := by
  rw [← Json.Entries.attr?_put_of_ne hname (.str name) attributes]
  unfold named
  split
  · exact Table.get?_erase_of_ne (Json.Key.sharp_text _) (fun h => hspace (Json.Key.text.inj h)) _
  · exact Json.Entries.attr?_put_of_ne hspace _ _

/-- A full name with a dot, or one that is kept out of any namespace, is full in every namespace. -/
theorem ofNamed_of_kept (h : name.isDotted = false → attributes.attr? "namespace" = some (.str [])) :
    Name.ofNamed name attributes space = .ok name := by
  cases hd : name.isDotted with
  | true => exact Name.ofNamed_of_dotted hd _ _
  | false =>
    rw [Name.ofNamed_of_undotted hd, Name.statedNamespace, h hd]
    rfl

theorem attr?_named_namespace (h : name.isDotted = false) (attributes : Json.Entries) :
    (named name attributes).attr? "namespace" = some (.str []) := by
  unfold named
  rw [h, if_neg Bool.false_ne_true]
  exact Json.Entries.attr?_put_self _ _ _

/-! ### Kinds -/

open Conversion

variable {met : Met} {schema : Json}

/-- What stands as the type of an object that is spelled out. -/
def typeAfter (met : Met) (space : Text) (attributes : Json.Entries) : Option Json :=
  match objectShape attributes with
  | .wrapper inner => some (node met space inner).1
  | .reference name _ => some (.str (met.spell name space))
  | _ => attributes.attr? "type"

/-- An object that is spelled out is an object with the same attributes but for those that a spelling
changes. -/
theorem node_obj (met : Met) (space : Text) (attributes : Json.Entries) :
    ∃ spelled : Json.Entries, (node met space (.obj attributes)).1 = .obj spelled
      ∧ Alike attributes spelled ∧ spelled.attr? "type" = typeAfter met space attributes := by
  have hsame : ∀ name, (named name attributes).attr? "type" = attributes.attr? "type" :=
    fun name => attr?_named_of_ne (by decide) (by decide) name attributes
  have hput : ∀ (es : Json.Entries) (name : Text) (value : Json), name ≠ Text.ofString "type" →
      (es.put name value).attr? "type" = es.attr? "type" :=
    fun es name value hne => Json.Entries.attr?_put_of_ne hne value es
  rw [node]
  split
  · rename_i hs
    dsimp only
    rw [typeAfter, hs]
    exact ⟨_, rfl, (Alike.refl _).put (by decide) _, Json.Entries.attr?_put_self _ _ _⟩
  · rename_i hs
    dsimp only
    rw [typeAfter, hs]
    exact ⟨_, rfl, (Alike.refl _).put (by decide) _, hput _ "items" _ (by decide)⟩
  · rename_i hs
    dsimp only
    rw [typeAfter, hs]
    exact ⟨_, rfl, (Alike.refl _).put (by decide) _, hput _ "values" _ (by decide)⟩
  · rename_i hs
    dsimp only
    rw [typeAfter, hs]
    exact ⟨_, rfl, (Alike.refl _).put (by decide) _, Json.Entries.attr?_put_self _ _ _⟩
  · rename_i hs
    dsimp only
    rw [typeAfter, hs]
    exact ⟨_, rfl, alike_named _ _, hsame _⟩
  · rename_i hs
    dsimp only
    rw [typeAfter, hs]
    split
    · exact ⟨_, rfl, alike_named _ _, hsame _⟩
    · split
      · exact ⟨_, rfl, (alike_named _ _).put (by decide) _,
          (hput _ "fields" _ (by decide)).trans (hsame _)⟩
      · exact ⟨_, rfl, alike_named _ _, hsame _⟩
  · refine ⟨_, rfl, .refl _, ?_⟩
    unfold typeAfter
    split <;> simp_all

/-- A node of a primitive kind has no name to be spelled out. -/
theorem node_of_primitive_kind {t : Text} {p : Primitive} (h : kind schema = .ok (.str t))
    (hp : Primitive.ofText? t = some p) : node met space schema = (schema, met) := by
  induction schema using Schema.induction with
  | step schema ih =>
    rcases kind_cases h with ⟨_, -, hk⟩ | ⟨rfl, -⟩ | ⟨attributes, rfl, ht, -⟩ | ⟨inner, hs, hk⟩
    · rw [Json.str.inj hk] at hp
      cases hp
    · rw [node_str, Met.spell, hp, Option.isSome_some, if_pos rfl]
    · exact node_primitive (shape_of_primitive ht hp)
    · obtain ⟨attributes, rfl, ht⟩ := fits_of_shape hs (by simp) (by simp) (by simp)
      have hput : Json.Entries.put "type" inner attributes = attributes := Table.set_of_get? ht
      rw [node_wrapper hs, ih inner (.inner hs) hk, hput]

/-- Two kinds are one, or neither is a primitive one. -/
def SameKind (k k' : Json) : Prop :=
  k' = k ∨ (primitiveOfKind? k = none ∧ primitiveOfKind? k' = none)

theorem SameKind.isNullKind {k k' : Json} (h : SameKind k k') : isNullKind k' = isNullKind k := by
  have hnot : ∀ {j : Json}, primitiveOfKind? j = none → Schema.isNullKind j = false := by
    intro j hj
    cases hn : Schema.isNullKind j with
    | false => rfl
    | true =>
      rw [eq_null_of_isNullKind hn] at hj
      cases hj
  rcases h with rfl | ⟨hk, hk'⟩
  · rfl
  · rw [hnot hk, hnot hk']

/-- A name that is spelled out has a kind of the same sort. -/
theorem sameKind_spell (met : Met) (name space : Text) :
    SameKind (.str name) (.str (met.spell name space)) := by
  rcases spell_cases met name space with h | ⟨hp, hd⟩
  · exact .inl (by rw [h])
  · exact .inr ⟨hp, ofText?_of_defined (ofText_of_dotted hd)⟩

/-- A type that is no list and no object is followed by one of the same sort. -/
theorem typeAfter_of_plain (met : Met) (space : Text) {k : Json}
    (ht : attributes.attr? "type" = some k) (hk : Plain k) :
    ∃ k', typeAfter met space attributes = some k' ∧ Plain k' ∧ SameKind k k' := by
  unfold typeAfter
  split
  · rename_i inner hs
    have hs : shape (.obj attributes) = .wrapper inner := hs
    have hinner : attributes.attr? "type" = some inner := by
      obtain ⟨es, he, hinner⟩ := fits_of_shape hs (by simp) (by simp) (by simp)
      cases he
      exact hinner
    rw [ht] at hinner
    cases hinner
    exact absurd hk (not_plain_of_wrapper hs)
  · rename_i hs
    obtain ⟨hname, -⟩ := type_of_reference hs
    rw [ht] at hname
    cases hname
    exact ⟨_, rfl, trivial, sameKind_spell met _ space⟩
  · exact ⟨k, ht, hk, .inl rfl⟩

/-- A node that is spelled out has a kind of the same sort. -/
theorem kind_node {k : Json} (h : kind schema = .ok k) (met : Met) (space : Text) :
    ∃ k', kind (node met space schema).1 = .ok k' ∧ SameKind k k' := by
  induction schema using Schema.induction with
  | step schema ih =>
    rcases kind_cases h with ⟨members, rfl, rfl⟩ | ⟨rfl, hp⟩ | ⟨attributes, rfl, ht, hp⟩ |
      ⟨inner, hs, hk⟩
    · rw [node_arr]
      exact ⟨_, kind_arr _, .inl rfl⟩
    · cases schema with
      | str name =>
        rw [node_str]
        exact ⟨_, kind_of_plain (by trivial), sameKind_spell met name space⟩
      | arr members => exact hp.elim
      | obj attributes => exact hp.elim
      | _ =>
        rw [node] <;> simp only [reduceCtorEq, imp_self, implies_true]
        exact ⟨_, kind_of_plain hp, .inl rfl⟩
    · obtain ⟨spelled, hs, -, hty⟩ := node_obj met space attributes
      obtain ⟨k', hk', hp', hsame⟩ := typeAfter_of_plain met space ht hp
      rw [hs, kind_of_type (hty.trans hk'), kind_of_plain hp']
      exact ⟨k', rfl, hsame⟩
    · obtain ⟨attributes, rfl, -⟩ := fits_of_shape hs (by simp) (by simp) (by simp)
      rw [node_wrapper hs, kind_of_type (Json.Entries.attr?_put_self _ _ _)]
      exact ih inner (.inner hs) hk

/-- A list or an object that is spelled out is one. -/
theorem not_plain_node (h : ¬Plain schema) (met : Met) (space : Text) :
    ¬Plain (node met space schema).1 := by
  cases schema with
  | arr members =>
    rw [node_arr]
    exact id
  | obj attributes =>
    obtain ⟨spelled, hs, -⟩ := node_obj met space attributes
    rw [hs]
    exact id
  | _ => exact absurd trivial h

/-- A wrapper that is spelled out wraps what it wrapped, spelled out. -/
theorem shape_wrapper {inner : Json} (h : shape (.obj attributes) = .wrapper inner) :
    shape (.obj (attributes.put "type" (node met space inner).1))
      = .wrapper (node met space inner).1 :=
  shape_of_inner (Json.Entries.attr?_put_self _ _ _) (not_plain_node (not_plain_of_wrapper h) _ _)

/-! ### Null -/

theorem anyNull_nodes {members : List Json} {nullable : Bool} (h : anyNull members = .ok nullable)
    (met : Met) : anyNull (nodes met space members).1 = .ok nullable := by
  induction members generalizing met with
  | nil =>
    rw [nodes_nil]
    exact h
  | cons j js ih =>
    cases hk : kind j with
    | error fault =>
      rw [anyNull, hk] at h
      cases h
    | ok k =>
      obtain ⟨k', hk', hsame⟩ := kind_node hk met space
      rw [anyNull_cons hk] at h
      rw [nodes_cons, anyNull_cons hk', hsame.isNullKind]
      split at h
      · rename_i hnull
        rw [if_pos hnull]
        exact h
      · rename_i hnull
        rw [if_neg hnull]
        exact ih h _

/-- A node that is spelled out admits null if the node does. -/
theorem isNullable_node {nullable : Bool} (h : isNullable schema = .ok nullable) (met : Met)
    (space : Text) : isNullable (node met space schema).1 = .ok nullable := by
  induction schema using Schema.induction with
  | step schema ih =>
    cases schema with
    | arr members =>
      rw [node_arr, isNullable_arr]
      rw [isNullable_arr] at h
      exact anyNull_nodes h met
    | obj attributes =>
      cases ht : Json.Entries.attr? "type" attributes with
      | none =>
        rw [isNullable_of_untyped ht] at h
        cases h
      | some k =>
        by_cases hk : Plain k
        · obtain ⟨spelled, hs, -, hty⟩ := node_obj met space attributes
          obtain ⟨k', hk', hp', hsame⟩ := typeAfter_of_plain met space ht hk
          rw [hs, isNullable_of_plain_type (hty.trans hk') hp', hsame.isNullKind, ← h,
            isNullable_of_plain_type ht hk]
        · have hs : shape (.obj attributes) = .wrapper k := shape_of_inner ht hk
          rw [node_wrapper hs, isNullable_of_wrapper (shape_wrapper hs)]
          rw [isNullable_of_wrapper hs] at h
          exact ih k (.inner hs) h
    | str name =>
      rw [node_str, ← h, isNullable, isNullable, (sameKind_spell met name space).isNullKind]
      all_goals simp
    | _ => rwa [node] <;> simp

/-! ### Unions -/

/-- The members that are not null are so when they are spelled out, and the null ones hold no name. -/
theorem nonNull_nodes {members rest : List Json} (h : nonNull members = .ok rest) (met : Met)
    (space : Text) :
    nonNull (nodes met space members).1 = .ok (nodes met space rest).1
      ∧ (nodes met space members).2 = (nodes met space rest).2 := by
  induction members generalizing rest met with
  | nil =>
    cases h
    rw [nodes_nil]
    exact ⟨rfl, rfl⟩
  | cons j js ih =>
    obtain ⟨k, more, hk, hmore, rfl⟩ := nonNull_cons_ok h
    by_cases hnull : isNullKind k = true
    · have hkind := hk
      rw [eq_null_of_isNullKind hnull] at hkind
      have hj : node met space j = (j, met) := node_of_primitive_kind hkind (p := .null) rfl
      obtain ⟨hspelled, hmet⟩ := ih hmore met
      rw [nodes_cons, hj, if_pos hnull, nonNull_cons hk hspelled, if_pos hnull]
      exact ⟨rfl, hmet⟩
    · obtain ⟨k', hk', hsame⟩ := kind_node hk met space
      obtain ⟨hspelled, hmet⟩ := ih hmore (node met space j).2
      rw [nodes_cons, if_neg hnull, nodes_cons, nonNull_cons hk' hspelled, hsame.isNullKind,
        if_neg hnull]
      exact ⟨rfl, hmet⟩

theorem length_nodes (met : Met) (space : Text) (list : List Json) :
    (nodes met space list).1.length = list.length := by
  induction list generalizing met with
  | nil => rw [nodes_nil]
  | cons j js ih =>
    rw [nodes_cons, List.length_cons, ih]
    rfl

/-- A union of null and another type is one when it is spelled out, and the other type is all that is
spelled out in it. -/
theorem unionForm_nodes_of_nullable {members : List Json} {member : Json}
    (h : unionForm members = .nullable member) (met : Met) (space : Text) :
    unionForm (nodes met space members).1 = .nullable (node met space member).1
      ∧ (nodes met space members).2 = (node met space member).2 := by
  obtain ⟨hspelled, hmet⟩ := nonNull_nodes (nonNull_of_unionForm h) met space
  have hone : nodes met space [member] = ([(node met space member).1], (node met space member).2) := by
    rw [nodes_cons, nodes_nil]
  rw [hone] at hspelled hmet
  refine ⟨?_, hmet⟩
  unfold unionForm
  rw [hspelled]
  exact if_neg (length_nodes met space members ▸ length_of_unionForm h)

/-- A choice is one when it is spelled out. -/
theorem unionForm_nodes_of_choice {members : List Json} (h : unionForm members = .choice)
    (met : Met) (space : Text) : unionForm (nodes met space members).1 = .choice := by
  unfold unionForm at h ⊢
  split at h
  · cases h
  · rename_i member hm
    split at h
    · rename_i hlength
      obtain ⟨hspelled, -⟩ := nonNull_nodes hm met space
      rw [hspelled, nodes_cons, nodes_nil]
      exact if_pos ((length_nodes met space members).trans hlength)
    · cases h
  · rename_i rest hne hm
    obtain ⟨hspelled, -⟩ := nonNull_nodes hm met space
    rw [hspelled]
    split
    · rename_i heq
      cases heq
    · rename_i member heq
      have hlength := length_nodes met space rest
      rw [Except.ok.inj heq] at hlength
      obtain ⟨j, rfl⟩ := List.length_eq_one_iff.1 hlength.symm
      exact absurd rfl (hne j)
    · rfl

end Spelling

end AvroJsonSchema
