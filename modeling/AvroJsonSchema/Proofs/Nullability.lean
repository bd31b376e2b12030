import AvroJsonSchema.Proofs.Meaning
import AvroJsonSchema.Proofs.Origins
import AvroJsonSchema.Proofs.References

/-!
# Types that admit null

Whether a field is required is decided by a look at its type alone, and its property is made by the
conversion of the same type.  The look goes down wrappers and asks the members of a union for their
kinds; the conversion goes its own way through wrappers, annotations and the forms of a union.  What
the look says is told here without a run, and then compared with the keywords that the conversion
makes.

* **`Schema.admitsNull`**: what the look says.
* **`Json.Entries.AdmitsNull`**: keywords admit null by their type or by a branch of their choice.
* **`Conversion.ofOneType_node`**: what is made of a node that is no wrapper and no union.
* **`Conversion.type_null_iff`**: which nodes are converted to the type null.
* **`Conversion.admitsNull_iff`**: the look and the conversion agree.
-/

namespace AvroJsonSchema

open Json Schema Step

/-! ### Types that admit null -/

namespace Conversion

variable {schema inner : Json}

theorem origin_of_not_wrapper (h : ∀ inner, shape schema ≠ .wrapper inner) :
    origin false schema = schema := by
  cases hs : shape schema with
  | wrapper inner => exact absurd hs (h inner)
  | union members =>
    cases hu : unionForm members with
    | nullable member => exact origin_of_nullable hs hu
    | fault fault => exact origin_of_choice hs (by simp [hu])
    | choice => exact origin_of_choice hs (by simp [hu])
  | _ => exact origin_of_other (by simp [hs]) (by simp [hs])

end Conversion

namespace Schema

open Conversion

/-- Whether a node has the kind of null. -/
def hasNullKind (j : Json) : Bool :=
  match kind j with
  | .ok k => isNullKind k
  | .error _ => false

/-- Whether a type is null, plain or annotated, or a union with a member of the kind of null, once
no wrapper stands around it. -/
def admitsNull (type : Json) : Bool :=
  match origin false type with
  | .arr members => members.any hasNullKind
  | .obj attributes => (Entries.attr? "type" attributes).any isNullKind
  | j => isNullKind j

theorem hasNullKind_iff {j : Json} : hasNullKind j = true ↔ kind j = .ok (.str "null") := by
  unfold hasNullKind
  cases kind j with
  | error fault => simp
  | ok k => exact ⟨fun h => congrArg _ (eq_null_of_isNullKind h), fun h => by cases h; rfl⟩

theorem any_hasNullKind_of_anyNull {members : List Json} {b : Bool} (h : anyNull members = .ok b) :
    members.any hasNullKind = b := by
  induction members with
  | nil =>
    rw [anyNull] at h
    cases h
    rfl
  | cons j js ih =>
    cases hk : kind j with
    | error fault =>
      rw [anyNull, hk] at h
      cases h
    | ok k =>
      have hj : hasNullKind j = isNullKind k := by
        unfold hasNullKind
        rw [hk]
      rw [anyNull_cons hk] at h
      rw [List.any_cons, hj]
      split at h
      · rename_i hnull
        cases h
        rw [hnull]
        rfl
      · rename_i hnull
        rw [Bool.eq_false_iff.2 hnull]
        exact ih h

/-- The look at a type says whether it admits null. -/
theorem admitsNull_of_isNullable {type : Json} {b : Bool} (h : isNullable type = .ok b) :
    admitsNull type = b := by
  induction type using Schema.induction with
  | step type ih =>
    by_cases hw : ∃ inner, shape type = .wrapper inner
    · obtain ⟨inner, hs⟩ := hw
      rw [admitsNull, origin_of_wrapper hs]
      exact ih inner (.inner hs) (isNullable_of_wrapper hs ▸ h)
    · have hself : origin false type = type := origin_of_not_wrapper (not_exists.1 hw)
      unfold admitsNull
      rw [hself]
      cases type with
      | arr members => exact any_hasNullKind_of_anyNull (isNullable_arr members ▸ h)
      | obj attributes =>
        cases ht : Entries.attr? "type" attributes with
        | none =>
          rw [isNullable_of_untyped ht] at h
          cases h
        | some k =>
          have hplain : Plain k := by
            refine Classical.byContradiction fun hk => ?_
            exact hw ⟨k, shape_of_inner ht hk⟩
          rw [isNullable_of_plain_type ht hplain] at h
          dsimp only
          rw [ht]
          exact Except.ok.inj h
      | _ =>
        rw [isNullable] at h <;> first | exact Except.ok.inj h | simp

end Schema

/-! ### Keywords that admit null -/

/-- Some keywords admit null: the type is null or a list with null in it, or a branch of the choice
has the type null. -/
def Json.Entries.AdmitsNull (keywords : Entries) : Prop :=
  keywords.attr? "type" = some (.str "null")
    ∨ (∃ types, keywords.attr? "type" = some (.arr types) ∧ .str "null" ∈ types)
    ∨ ∃ (branches : List Json) (branch : Entries), keywords.attr? "oneOf" = some (.arr branches)
      ∧ .obj branch ∈ branches ∧ branch.attr? "type" = some (.str "null")

namespace Keywords

variable {options : Options} {attributes keywords : Entries}

theorem admitsNull_congr {keywords keywords' : Entries}
    (htype : keywords.attr? "type" = keywords'.attr? "type")
    (hone : keywords.attr? "oneOf" = keywords'.attr? "oneOf") :
    keywords.AdmitsNull ↔ keywords'.AdmitsNull := by
  unfold Entries.AdmitsNull
  rw [htype, hone]

theorem admitsNull_decorate (field : Entries) :
    (decorate field keywords).AdmitsNull ↔ keywords.AdmitsNull :=
  admitsNull_congr (attr?_decorate_of_ne (by decide) (by decide) field)
    (attr?_decorate_of_ne (by decide) (by decide) field)

/-! ### Keywords with one type -/

/-- Some keywords have no choice and no list of types, and their type is null in a given case
alone. -/
structure OfOneType (keywords : Entries) (null : Prop) : Prop where
  choice : keywords.attr? "oneOf" = none
  single : ∀ types, keywords.attr? "type" ≠ some (.arr types)
  type : keywords.attr? "type" = some (.str "null") ↔ null

theorem OfOneType.admitsNull_iff {null : Prop} (h : OfOneType keywords null) :
    keywords.AdmitsNull ↔ null := by
  refine Iff.trans ⟨?_, .inl⟩ h.type
  rintro (htype | ⟨types, htypes, -⟩ | ⟨branches, branch, hone, -⟩)
  · exact htype
  · exact absurd htypes (h.single types)
  · cases h.choice.symm.trans hone

theorem OfOneType.of_type {type : SchemaType}
    (htype : keywords.attr? "type" = some (.str type.text)) (hone : keywords.attr? "oneOf" = none) :
    OfOneType keywords (type = .null) where
  choice := hone
  single types h := by cases htype.symm.trans h
  type := by
    have htext : type.text = Text.ofString "null" ↔ type = .null := by cases type <;> decide
    rw [htype, Option.some_inj, Json.str.injEq, htext]

theorem OfOneType.annotate {null : Prop} (h : OfOneType keywords null) (hb : Bare attributes) :
    OfOneType (annotate attributes keywords) null := by
  have hone : (Keywords.annotate attributes keywords).attr? "oneOf" = keywords.attr? "oneOf" :=
    attr?_annotate_of_none (customProperty?_of_nil hb.2 _) (by decide)
  have htype : (Keywords.annotate attributes keywords).attr? "type" = keywords.attr? "type" :=
    attr?_annotate_of_none (customProperty?_of_nil hb.2 _) (by decide)
  exact ⟨hone ▸ h.choice, fun types => htype ▸ h.single types, htype ▸ h.type⟩

/-- A type that is put in and other keywords, none of them a choice. -/
theorem ofOneType_withType (hb : Bare attributes) (type : SchemaType) :
    OfOneType (withType options attributes type) (type = .null) := by
  rw [withType_of_bare hb]
  exact .of_type rfl rfl

theorem OfOneType.put {null : Prop} (h : OfOneType keywords null) {name : Text}
    (hone : name ≠ "oneOf") (htype : name ≠ "type") (value : Json) :
    OfOneType (keywords.put name value) null := by
  have hput : ∀ other, name ≠ other → (keywords.put name value).attr? other = keywords.attr? other :=
    fun other hne => Entries.attr?_put_of_ne hne _ _
  exact ⟨hput _ hone ▸ h.choice, fun types => hput _ htype ▸ h.single types, hput _ htype ▸ h.type⟩

theorem ofOneType_primitive (p : Primitive) :
    OfOneType ((Scalar.primitive p).apply false []) (p = .null) := by
  have hnull : p = .null ↔ p.schemaType = .null := by cases p <;> decide
  rw [hnull]
  cases p <;> exact .of_type rfl rfl

theorem ofOneType_reference (draft : Draft) (name : Text) :
    OfOneType (reference draft name) False where
  choice := rfl
  single _ := nofun
  type := ⟨nofun, False.elim⟩

theorem OfOneType.of_iff {null null' : Prop} (h : OfOneType keywords null) (hiff : null ↔ null') :
    OfOneType keywords null' :=
  ⟨h.choice, h.single, h.type.trans hiff⟩

theorem ofOneType_recordFrame (hb : Bare attributes) (name : Text) (properties : Entries)
    (required : List Json) :
    OfOneType (recordFrame options name attributes properties required) False := by
  have hobject : OfOneType (withType options attributes .object) False :=
    (ofOneType_withType hb .object).of_iff (iff_of_false (by decide) id)
  have hbefore : OfOneType (((withType options attributes .object).put "title"
      (.str (Name.localOf name))).put "properties" (.obj properties)) False :=
    (hobject.put (by decide) (by decide) _).put (by decide) (by decide) _
  unfold recordFrame
  dsimp only
  split <;> split
  · exact hbefore.put (by decide) (by decide) _
  · exact (hbefore.put (by decide) (by decide) _).put (by decide) (by decide) _
  · exact hbefore
  · exact hbefore.put (by decide) (by decide) _

end Keywords

/-! ### Nodes of one type -/

namespace Conversion

open Keywords

variable {options : Options} {enclosing name : Text} {c c' : Context} {attributes es : Entries}
  {schema : Json}

theorem ofOneType_leafKeywords {kind : Leaf} {qualified : Text} {keywords : Entries}
    (hb : Bare attributes) (h : leafKeywords options kind qualified attributes = .ok keywords) :
    OfOneType keywords False := by
  have hno : SchemaType.string = SchemaType.null ↔ False := by decide
  cases kind with
  | fixed =>
    cases h
    rw [ofScalar_of_bare hb]
    refine OfOneType.of_iff ?_ hno
    exact .of_type rfl rfl
  | enum =>
    unfold leafKeywords enumKeywords at h
    dsimp only at h
    cases hs : require attributes "symbols" [] with
    | error fault =>
      rw [hs] at h
      cases h
    | ok symbols =>
      simp only [hs, bind, Except.bind] at h
      split at h
      · cases h
        exact ((ofOneType_withType hb .string).put (by decide) (by decide) _).of_iff hno
      · cases h

/-- What is made of a name is of one type, which is null for the name of null alone. -/
theorem ofOneType_typeName (hc : c.Sound) (hbare : ∀ q es, (q, es) ∈ c.named → Bare es)
    (h : outcome (typeName options name enclosing) c = (.ok es, c')) :
    OfOneType es (name = Text.ofString "null") := by
  have hother : Primitive.ofText? name = none → (False ↔ name = Text.ofString "null") := by
    intro hp
    refine ⟨False.elim, ?_⟩
    rintro rfl
    cases hp
  rcases typeName_ok hc h with ⟨p, hp, rfl, -⟩ | ⟨q, hp, -, ⟨-, hok⟩ | ⟨-, kind, n, stored, hmem, -, hok⟩⟩
  · refine (ofOneType_primitive p).of_iff ?_
    rw [← Primitive.text_of_ofText? hp]
    cases p <;> decide
  · obtain ⟨rfl, -⟩ := reference_ok hok
    exact (ofOneType_reference _ _).of_iff (hother hp)
  · obtain ⟨qualified, keywords, -, hk, rfl, -⟩ := leaf_ok hok
    have hb := hbare q stored hmem
    exact ((ofOneType_leafKeywords hb hk).annotate hb).of_iff (hother hp)

/-- An object that is no primitive one has not the kind of null, unless a wrapper is. -/
theorem kind_ne_null (hw : ∀ inner, shape schema ≠ .wrapper inner)
    (hn : ∀ name, shape schema ≠ .name name) (hp : ∀ p es, shape schema ≠ .primitive p es) :
    kind schema ≠ .ok (.str "null") := by
  intro hk
  have hnull : Primitive.ofText? (Text.ofString "null") = some .null := by decide
  rcases origin_of_primitive_kind false hk hnull with ho | ⟨attributes, ho, hs⟩ <;>
    rw [origin_of_not_wrapper hw] at ho <;> subst ho
  · exact hn _ rfl
  · exact hp _ _ hs

/-- What is made of a node that is no wrapper and no union is of one type, which is null for a node
of the kind of null alone. -/
theorem ofOneType_node (hc : c.Sound) (hbare : ∀ q es, (q, es) ∈ c.named → Bare es)
    (hobject : ∀ attributes, schema = .obj attributes → Bare attributes)
    (hw : ∀ inner, shape schema ≠ .wrapper inner) (hu : ∀ members, shape schema ≠ .union members)
    (h : outcome (node options schema enclosing) c = (.ok es, c')) :
    OfOneType es (kind schema = .ok (.str "null")) := by
  have hno : ∀ type : SchemaType, type ≠ .null → (∀ name, shape schema ≠ .name name) →
      (∀ p es, shape schema ≠ .primitive p es) →
      (type = .null ↔ kind schema = .ok (.str "null")) := by
    intro type htype hn hp
    exact iff_of_false htype (kind_ne_null hw hn hp)
  cases hs : shape schema with
  | malformed fault =>
    rw [node_of_malformed hs] at h
    cases h
  | union members => exact absurd hs (hu members)
  | wrapper inner => exact absurd hs (hw inner)
  | name name =>
    rw [node_of_name hs] at h
    rw [eq_str_of_shape hs, kind_of_plain (by trivial), Except.ok.injEq, Json.str.injEq]
    exact ofOneType_typeName hc hbare h
  | primitive p attributes =>
    obtain ⟨_, rfl, rfl⟩ := fits_of_shape hs (by simp) (by simp) (by simp)
    rw [node_of_primitive hs] at h
    cases h
    have hb := hobject _ rfl
    rw [kind_of_type (type_of_shape_primitive hs), kind_of_plain (by trivial)]
    have hscalar : OfOneType (ofScalar options.setup.options attributes (.primitive p))
        (p = .null) := by
      rw [ofScalar_of_bare hb]
      exact ofOneType_primitive p
    refine (hscalar.annotate hb).of_iff ?_
    rw [Except.ok.injEq, Json.str.injEq]
    cases p <;> decide
  | leaf kind name attributes =>
    obtain ⟨_, rfl, rfl⟩ := fits_of_shape hs (by simp) (by simp) (by simp)
    rw [node_of_leaf hs] at h
    obtain ⟨qualified, keywords, -, hk, rfl, -⟩ := leaf_ok h
    have hb := hobject _ rfl
    refine ((ofOneType_leafKeywords hb hk).annotate hb).of_iff (iff_of_false id ?_)
    exact kind_ne_null hw (by simp [hs]) (by simp [hs])
  | array items attributes =>
    obtain ⟨_, rfl, rfl, -⟩ := fits_of_shape hs (by simp) (by simp) (by simp)
    rw [node_of_array hs] at h
    obtain ⟨inner, -, rfl⟩ := map_ok h
    have hb := hobject _ rfl
    exact (((ofOneType_withType hb .array).put (by decide) (by decide) _).annotate hb).of_iff
      (hno _ (by decide) (by simp [hs]) (by simp [hs]))
  | map values attributes =>
    obtain ⟨_, rfl, rfl, -⟩ := fits_of_shape hs (by simp) (by simp) (by simp)
    rw [node_of_map hs] at h
    obtain ⟨inner, -, rfl⟩ := map_ok h
    have hb := hobject _ rfl
    exact (((ofOneType_withType hb .object).put (by decide) (by decide) _).annotate hb).of_iff
      (hno _ (by decide) (by simp [hs]) (by simp [hs]))
  | reference name attributes =>
    obtain ⟨_, rfl, rfl⟩ := fits_of_shape hs (by simp) (by simp) (by simp)
    rw [node_of_reference hs] at h
    obtain ⟨target, ht, rfl⟩ := map_ok h
    have hb := hobject _ rfl
    have htarget := ofOneType_typeName hc hbare ht
    have hsame : ∀ keyword : Text, Entries.attr? keyword
        ((ofLogicalType options attributes).mergeAbsent target) = target.attr? keyword := by
      intro keyword
      rw [ofLogicalType_of_bare hb]
      exact Table.get?_mergeAbsent (Key.sharp_text keyword) [] target
    have hmerged : OfOneType ((ofLogicalType options attributes).mergeAbsent target)
        (name = Text.ofString "null") :=
      ⟨hsame _ ▸ htarget.choice, fun types => hsame _ ▸ htarget.single types,
        hsame _ ▸ htarget.type⟩
    refine (hmerged.annotate hb).of_iff ?_
    rw [kind_of_type (type_of_reference hs).1, kind_of_plain (by trivial), Except.ok.injEq,
      Json.str.injEq]
  | record name attributes =>
    have hb := hobject _ (eq_obj_of_record hs)
    have hkind : False ↔ kind schema = .ok (.str "null") :=
      iff_of_false id (kind_ne_null hw (by simp [hs]) (by simp [hs]))
    obtain ⟨q, -, ⟨-, hreference⟩ | ⟨-, list, made, c₁, -, -, rfl, -⟩⟩ := record_ok hs h
    · obtain ⟨rfl, -⟩ := reference_ok hreference
      exact (ofOneType_reference _ _).of_iff hkind
    · exact ((ofOneType_recordFrame hb _ _ _).annotate hb).of_iff hkind

/-! ### Nodes that admit null -/

/-- A scope fits a context, so that nothing that has been named in it has a logical type or a custom
property. -/
def Fitted (c : Context) : Prop :=
  c.Sound ∧ ∃ scope : Scope, scope.Fits c

theorem Fitted.bare (h : Fitted c) : ∀ q es, (q, es) ∈ c.named → Bare es := by
  obtain ⟨-, scope, hfits⟩ := h
  exact hfits.bare

theorem Fitted.of_node (h : Fitted c) (hflatten : options.flattenNullableUnions = false)
    (hall : AllBare schema) (hok : outcome (node options schema enclosing) c = (.ok es, c')) :
    Fitted c' := by
  obtain ⟨hc, scope, hfits⟩ := h
  obtain ⟨t, scope', -, hw⟩ := writes_node hflatten schema hall _ _ _ _ _ hc hfits hok
  exact ⟨hw.progress.evolves.sound, scope', hw.fits⟩

/-- A union with one member beside null has a member of the kind of null. -/
theorem any_hasNullKind_of_nullable {members : List Json} {member : Json}
    (h : unionForm members = .nullable member) : members.any hasNullKind = true := by
  obtain ⟨before, after, rfl, hnulls⟩ := split_of_nonNull (nonNull_of_unionForm h)
  have hlength := length_of_unionForm h
  obtain ⟨j, hj⟩ : ∃ j, j ∈ before ++ after := by
    refine List.exists_mem_of_ne_nil _ fun hnil => hlength ?_
    obtain ⟨rfl, rfl⟩ := List.append_eq_nil_iff.1 hnil
    rfl
  refine List.any_eq_true.2 ⟨j, ?_, hasNullKind_iff.2 (hnulls j hj)⟩
  rcases List.mem_append.1 hj with hj | hj
  · exact List.mem_append_left _ hj
  · exact List.mem_append_right _ (List.mem_cons_of_mem _ hj)

/-- What is made of a union that is not flattened: a choice between its members, a list of two types,
or a choice between null and the one other member. -/
theorem union_ok (hflatten : options.flattenNullableUnions = false) {members : List Json}
    (hb : ∀ j ∈ members, ∀ attributes, j = .obj attributes → Bare attributes)
    (h : outcome (union options members enclosing) c = (.ok es, c')) :
    (∃ branches, outcome (Conversion.branches options members enclosing) c = (.ok branches, c')
        ∧ es = oneOf branches)
      ∨ ∃ member, unionForm members = .nullable member
        ∧ ((∃ p, es = JsonSchema.pairCore p) ∨ ∃ branch, es = oneOf [nullSchema, .obj branch]) := by
  cases hu : unionForm members with
  | fault fault =>
    rw [union_of_fault hu] at h
    cases h
  | choice =>
    rw [union_of_choice hu] at h
    obtain ⟨branches, hbranches, rfl⟩ := map_ok h
    exact .inl ⟨branches, hbranches, rfl⟩
  | nullable member =>
    refine .inr ⟨member, rfl, ?_⟩
    obtain ⟨-, -, ⟨p, -, rfl, -⟩ | ⟨-, branch, -, rfl⟩⟩ := nullable_ok hu hflatten h
    · exact .inl ⟨p, nullableScalar_of_bare p (hb member (mem_of_unionForm hu))⟩
    · exact .inr ⟨branch, rfl⟩

/-- **The type null** is what a node of the kind of null is converted to, and no other node. -/
theorem type_null_iff (hflatten : options.flattenNullableUnions = false) (hall : AllBare schema)
    (hc : Fitted c) (h : outcome (node options schema enclosing) c = (.ok es, c')) :
    es.attr? "type" = some (.str "null") ↔ kind schema = .ok (.str "null") := by
  induction schema using Schema.induction with
  | step schema ih =>
    have hobject : ∀ attributes, schema = .obj attributes → Bare attributes :=
      fun attributes he => hall attributes (he ▸ .self _)
    by_cases hw : ∃ inner, shape schema = .wrapper inner
    · obtain ⟨inner, hs⟩ := hw
      rw [kind_of_wrapper hs]
      rw [node_of_wrapper hs] at h
      exact ih inner (.inner hs) (hall.child (.inner hs)) h
    by_cases hu : ∃ members, shape schema = .union members
    · obtain ⟨members, hs⟩ := hu
      have hkind : kind schema = .ok (.str "union") := by
        rw [eq_arr_of_shape hs, kind_arr]
      rw [node_of_union hs] at h
      have hb : ∀ j ∈ members, ∀ attributes, j = .obj attributes → Bare attributes :=
        fun j hj attributes he => hall.child (.member hs hj) attributes (he ▸ .self _)
      refine iff_of_false (fun htype => ?_) (fun hk => by cases hkind.symm.trans hk)
      rcases union_ok hflatten hb h with ⟨branches, -, rfl⟩ | ⟨member, -, ⟨p, rfl⟩ | ⟨branch, rfl⟩⟩ <;>
        cases htype
    · exact (ofOneType_node hc.1 hc.bare hobject (not_exists.1 hw) (not_exists.1 hu) h).type

/-- A branch of a choice has the type null if and only if a member of the union has its kind. -/
theorem null_branch_iff (hflatten : options.flattenNullableUnions = false) {nodes branches : List Json}
    (hall : ∀ j ∈ nodes, AllBare j) (hc : Fitted c)
    (h : outcome (Conversion.branches options nodes enclosing) c = (.ok branches, c')) :
    (∃ branch : Entries, .obj branch ∈ branches ∧ branch.attr? "type" = some (.str "null"))
      ↔ nodes.any hasNullKind = true := by
  induction nodes generalizing branches c with
  | nil =>
    rw [branches_nil] at h
    cases h
    simp
  | cons j js ih =>
    rw [branches_cons] at h
    obtain ⟨first, c₁, hnode, htail⟩ := bind_ok h
    obtain ⟨rest, hrest, rfl⟩ := map_ok htail
    have hj := hall j List.mem_cons_self
    have hfirst := (type_null_iff hflatten hj hc hnode).trans hasNullKind_iff.symm
    have hmore := ih (fun i hi => hall i (List.mem_cons_of_mem _ hi)) (hc.of_node hflatten hj hnode)
      hrest
    rw [List.any_cons, Bool.or_eq_true, ← hfirst, ← hmore]
    constructor
    · rintro ⟨branch, hmem, htype⟩
      rcases List.mem_cons.1 hmem with heq | hmem
      · cases heq
        exact .inl htype
      · exact .inr ⟨branch, hmem, htype⟩
    · rintro (htype | ⟨branch, hmem, htype⟩)
      · exact ⟨first, List.mem_cons_self, htype⟩
      · exact ⟨branch, List.mem_cons_of_mem _ hmem, htype⟩

theorem admitsNull_oneOf {branches : List Json} :
    (oneOf branches).AdmitsNull ↔
      ∃ branch : Entries, .obj branch ∈ branches ∧ branch.attr? "type" = some (.str "null") := by
  constructor
  · rintro (htype | ⟨types, htype, -⟩ | ⟨others, branch, hone, hmem, htype⟩)
    · cases htype
    · cases htype
    · cases hone
      exact ⟨branch, hmem, htype⟩
  · rintro ⟨branch, hmem, htype⟩
    exact .inr (.inr ⟨branches, branch, rfl, hmem, htype⟩)

theorem admitsNull_of_arr (members : List Json) :
    admitsNull (.arr members) = members.any hasNullKind := by
  rw [admitsNull, origin_of_not_wrapper (by simp [shape])]

/-- A node that is no wrapper and no union admits null if it has the kind of null. -/
theorem admitsNull_iff_kind (hw : ∀ inner, shape schema ≠ .wrapper inner)
    (hu : ∀ members, shape schema ≠ .union members) :
    admitsNull schema = true ↔ kind schema = .ok (.str "null") := by
  unfold admitsNull
  rw [origin_of_not_wrapper hw]
  cases schema with
  | arr members => exact absurd rfl (hu members)
  | obj attributes =>
    cases ht : Entries.attr? "type" attributes with
    | none =>
      rw [kind_of_untyped ht]
      simp [ht]
    | some k =>
      have hk : Plain k := Classical.byContradiction fun hk => hw k (shape_of_inner ht hk)
      rw [kind_of_type ht, kind_of_plain hk]
      dsimp only
      rw [ht]
      exact ⟨fun h => congrArg _ (eq_null_of_isNullKind h), fun h => by cases h; rfl⟩
  | _ =>
    rw [kind_of_plain (by trivial)]
    exact ⟨fun h => congrArg _ (eq_null_of_isNullKind h), fun h => by cases h; try rfl⟩

/-- **The look at a type and its conversion agree** on whether it admits null, where unions are not
flattened and no object has a logical type or a custom property. -/
theorem admitsNull_iff (hflatten : options.flattenNullableUnions = false) (hall : AllBare schema)
    (hc : Fitted c) (h : outcome (node options schema enclosing) c = (.ok es, c')) :
    admitsNull schema = true ↔ es.AdmitsNull := by
  induction schema using Schema.induction with
  | step schema ih =>
    by_cases hw : ∃ inner, shape schema = .wrapper inner
    · obtain ⟨inner, hs⟩ := hw
      rw [admitsNull, origin_of_wrapper hs]
      rw [node_of_wrapper hs] at h
      exact ih inner (.inner hs) (hall.child (.inner hs)) h
    by_cases hu : ∃ members, shape schema = .union members
    · obtain ⟨members, hs⟩ := hu
      have hmember : ∀ j ∈ members, AllBare j := fun j hj => hall.child (.member hs hj)
      rw [node_of_union hs] at h
      rw [eq_arr_of_shape hs, admitsNull_of_arr]
      rcases union_ok hflatten (fun j hj attributes he => hmember j hj attributes (he ▸ .self _)) h with
        ⟨branches, hbranches, rfl⟩ | ⟨member, hnullable, hes⟩
      · rw [admitsNull_oneOf, null_branch_iff hflatten hmember hc hbranches]
      · refine iff_of_true (any_hasNullKind_of_nullable hnullable) ?_
        rcases hes with ⟨p, rfl⟩ | ⟨branch, rfl⟩
        · exact .inr (.inl ⟨_, rfl, List.mem_cons_self⟩)
        · exact admitsNull_oneOf.2 ⟨_, List.mem_cons_self, rfl⟩
    · have hobject : ∀ attributes, schema = .obj attributes → Bare attributes :=
        fun attributes he => hall attributes (he ▸ .self _)
      have hone := ofOneType_node hc.1 hc.bare hobject (not_exists.1 hw) (not_exists.1 hu) h
      rw [hone.admitsNull_iff, admitsNull_iff_kind (not_exists.1 hw) (not_exists.1 hu)]

end Conversion

end AvroJsonSchema
