import AvroJsonSchema.Proofs.Spelling

/-!
# Spelling out full names changes nothing

The conversions of a schema and of the schema with all names spelled out go on side by side.  They
enter the same records, write the same definitions, and store definitions under the same names that
differ where the spelling changes them alone.  A name means the same type in both, so that what is
made of a node is made of the node spelled out.

* **`Context.Spells`**: two contexts agree, and with the types that the walk has met.
* **`Conversion.Spelt`**: what is made of a node is made of the node spelled out.
* **`Conversion.spelt_typeName`**, **`Conversion.spelt_union`**, **`Conversion.spelt_record`**: among
  the lemmas for the ways a node is converted.
* **`Document.ofSchema_spelled_out`**: a schema and the schema spelled out have one document.
-/

namespace AvroJsonSchema

open Schema Spelling

namespace Context

/-- The definition of a type is stored as it is, or spelled out. -/
structure Restates (attributes spelled : Json.Entries) : Prop where
  alike : Spelling.Alike attributes spelled
  type : spelled.attr? "type" = attributes.attr? "type"

/-- Two contexts agree but for the spelling of the stored definitions, and they have come through the
types that a walk has met. -/
structure Spells (met : Met) (c d : Context) : Prop where
  sound : c.Sound
  soundAfter : d.Sound
  seen : d.seen = c.seen
  definitions : d.definitions = c.definitions
  named : ∀ q, Option.Rel Restates (c.named.get? q) (d.named.get? q)
  records : ∀ q, q ∈ met.records ↔ q ∈ c.seen
  types : ∀ q, q ∈ met.types ↔ q ∈ c.named.keys

variable {met : Met} {c d : Context} {q name enclosing : Text} {attributes spelled : Json.Entries}

theorem Restates.isRecord_iff (ha : Restates attributes spelled) :
    IsRecord spelled ↔ IsRecord attributes := by
  unfold IsRecord
  rw [ha.type]

theorem Spells.empty : Spells .nothing Context.empty Context.empty where
  sound := .empty
  soundAfter := .empty
  seen := rfl
  definitions := rfl
  named _ := .none
  records _ := Iff.rfl
  types _ := Iff.rfl

theorem Spells.has (h : Spells met c d) (q : Text) : d.named.has q = c.named.has q := by
  have hrel := h.named q
  unfold Table.has
  revert hrel
  generalize c.named.get? q = a
  generalize d.named.get? q = b
  rintro (_ | _) <;> rfl

/-- A definition that is stored in the first context is stored in the second one too. -/
theorem Spells.stored (h : Spells met c d) (hfound : c.named.get? q = some attributes) :
    ∃ spelled, d.named.get? q = some spelled ∧ Restates attributes spelled := by
  have hrel := h.named q
  rw [hfound] at hrel
  cases hd : d.named.get? q with
  | none =>
    rw [hd] at hrel
    cases hrel
  | some spelled =>
    rw [hd] at hrel
    cases hrel with
    | some ha => exact ⟨spelled, rfl, ha⟩

theorem Spells.resolve (h : Spells met c d) (name enclosing : Text) :
    d.resolve name enclosing = c.resolve name enclosing := by
  unfold Context.resolve
  simp only [h.has]

/-! ### One write -/

/-- A definition that is stored in both contexts, spelled out in the second one. -/
theorem rel_set {s t : Table Text Json.Entries}
    (h : ∀ q, Option.Rel Restates (s.get? q) (t.get? q)) (hr : Restates attributes spelled)
    (name : Text) :
    ∀ q, Option.Rel Restates ((s.set name attributes).get? q) ((t.set name spelled).get? q) := by
  intro q
  rw [Table.get?_set, Table.get?_set]
  by_cases hq : q = name
  · rw [if_pos hq, if_pos hq]
    exact .some hr
  · rw [if_neg hq, if_neg hq]
    exact h q

theorem Spells.addNamed (h : Spells met c d) (hd : Defines attributes q)
    (hd' : Defines spelled q) (hr : ¬IsRecord attributes) (ha : Restates attributes spelled) :
    Spells { met with types := met.types ++ [q] } (c.addNamed q attributes)
      (d.addNamed q spelled) where
  sound := h.sound.addNamed hd fun hrecord => absurd hrecord hr
  soundAfter := h.soundAfter.addNamed hd' fun hrecord => absurd (ha.isRecord_iff.1 hrecord) hr
  seen := h.seen
  definitions := h.definitions
  named := rel_set h.named ha q
  records := h.records
  types p := by
    show p ∈ met.types ++ [q] ↔ p ∈ (c.named.set q attributes).keys
    rw [mem_keys_set, List.mem_append, List.mem_singleton, h.types]

theorem Spells.enter (h : Spells met c d) (hd : Defines attributes q) (hd' : Defines spelled q)
    (hq : q ∉ c.seen) (ha : Restates attributes spelled) :
    Spells (met.enter q) (c.enter q attributes) (d.enter q spelled) where
  sound := h.sound.enter hd hq
  soundAfter := h.soundAfter.enter hd' (h.seen ▸ hq)
  seen := congrArg (· ++ [q]) h.seen
  definitions := h.definitions
  named := rel_set h.named ha q
  records p := by
    show p ∈ met.records ++ [q] ↔ p ∈ c.seen ++ [q]
    rw [List.mem_append, List.mem_append, h.records]
  types p := by
    show p ∈ met.types ++ [q] ↔ p ∈ (c.named.set q attributes).keys
    rw [mem_keys_set, List.mem_append, List.mem_singleton, h.types]

theorem Spells.define (h : Spells met c d) (hq : q ∈ c.seen) (keywords : Json.Entries) :
    Spells met (c.define q keywords) (d.define q keywords) where
  sound := h.sound.define hq keywords
  soundAfter := h.soundAfter.define (h.seen ▸ hq) keywords
  seen := h.seen
  definitions := congrArg (Table.set q keywords) h.definitions
  named := h.named
  records := h.records
  types := h.types

/-! ### Names -/

/-- A name with a dot, or one in no namespace, means itself alone. -/
theorem candidates_of_full (h : (name.isDotted || enclosing.isEmpty) = true) :
    candidates name enclosing = [name] := by
  have hname : Name.qualify name enclosing = name := by
    unfold Name.qualify Name.join
    cases hd : name.isDotted with
    | true => rfl
    | false =>
      rw [hd, Bool.false_or] at h
      rw [if_neg Bool.false_ne_true, if_pos h]
  rw [candidates, hname, if_pos h]

/-- Any other name is looked for in the namespace first. -/
theorem candidates_of_short (h : (name.isDotted || enclosing.isEmpty) = false) :
    candidates name enclosing = [enclosing ++ Text.dot :: name, name] := by
  obtain ⟨hd, he⟩ := Bool.or_eq_false_iff.1 h
  rw [candidates, h, if_neg Bool.false_ne_true, Name.qualify, hd, if_neg Bool.false_ne_true,
    Name.join, he, if_neg Bool.false_ne_true]

/-- The walk spells a name out as the full name that it is resolved to, and the full name is resolved
to itself. -/
theorem Spells.fullName_of_resolve (h : Spells met c d) (hr : c.resolve name enclosing = .ok q) :
    met.fullName name enclosing = q ∧ c.resolve q enclosing = .ok q := by
  have hkey : ∀ p, c.named.has p = true ↔ met.types.contains p = true := fun p =>
    (Table.has_iff_mem_keys (Table.sharp_of_lawful p)).trans
      ((h.types p).symm.trans List.contains_iff_mem.symm)
  have hfind := resolve_eq_ok_iff.1 hr
  unfold Met.fullName
  cases hfull : name.isDotted || enclosing.isEmpty with
  | true =>
    rw [candidates_of_full hfull] at hfind
    obtain rfl := List.mem_singleton.1 (List.mem_of_find?_eq_some hfind)
    exact ⟨rfl, hr⟩
  | false =>
    rw [candidates_of_short hfull] at hfind
    rw [if_neg Bool.false_ne_true]
    by_cases hlong : c.named.has (enclosing ++ Text.dot :: name) = true
    · obtain rfl : enclosing ++ Text.dot :: name = q := by simpa [hlong] using hfind
      have hdotted : (enclosing ++ Text.dot :: name).isDotted = true := by simp [Text.isDotted]
      refine ⟨if_pos ((hkey _).1 hlong), resolve_eq_ok_iff.2 ?_⟩
      rw [candidates_of_full (by rw [hdotted, Bool.true_or])]
      exact List.find?_cons_of_pos hlong
    · rw [List.find?_cons_of_neg (p := (c.named.has ·)) hlong] at hfind
      obtain rfl := List.mem_singleton.1 (List.mem_of_find?_eq_some hfind)
      exact ⟨if_neg (mt (hkey _).2 hlong), hr⟩

end Context

namespace Conversion

open Step Context

/-- Wherever a node is converted, the same is made of the node spelled out. -/
def Spelt (options : Options) (schema : Json) : Prop :=
  ∀ enclosing met c d es c', Spells met c d →
    outcome (Conversion.node options schema enclosing) c = (.ok es, c') →
    ∃ d', outcome (Conversion.node options (Spelling.node met enclosing schema).1 enclosing) d
        = (.ok es, d')
      ∧ Spells (Spelling.node met enclosing schema).2 c' d'

variable {options : Options} {enclosing name : Text} {met : Met} {c d c' : Context}
  {attributes es : Json.Entries} {schema : Json}

/-! ### Names and leaves -/

/-- What a definition of an enum or a fixed type is made of is the same where it is spelled out. -/
theorem outcome_leaf_of_restates {kind : Leaf} {n qualified : Text} {spelled keywords : Json.Entries}
    (ha : Restates attributes spelled) (hn : spelled.attr? "name" = some (.str n))
    (ht : attributes.attr? "type" = some (.str kind.complex.text))
    (hq : Name.ofNamed n spelled enclosing = .ok qualified)
    (hk : leafKeywords options kind qualified attributes = .ok keywords) (d : Context) :
    outcome (Conversion.node options (.obj spelled) enclosing) d =
      (.ok (Keywords.annotate attributes keywords),
        if qualified.isEmpty then d else d.addNamed qualified spelled) := by
  have hs : shape (.obj spelled) = .leaf kind n spelled := objectShape_of_leaf (ha.type.trans ht) hn
  rw [node_of_leaf hs, outcome_leaf, hq]
  have hkeywords : leafKeywords options.setup.options kind qualified spelled = .ok keywords :=
    ha.alike.leafKeywords hk
  dsimp only
  rw [hkeywords]
  show (Except.ok (Keywords.annotate spelled keywords), _) = _
  rw [ha.alike.annotate]

/-- A full name that leads to a stored definition of an enum or a fixed type makes the same of it. -/
theorem spelt_stored {kind : Leaf} {n q : Text} (h : Spells met c d)
    (hp : Primitive.ofText? q = none) (hr : d.resolve q enclosing = .ok q) (hunseen : q ∉ c.seen)
    (hmem : (q, attributes) ∈ c.named) (hs : objectShape attributes = .leaf kind n attributes)
    (hok : outcome (leaf options kind n attributes (Name.namespaceOf q)) c = (.ok es, c')) :
    ∃ d', outcome (typeName options q enclosing) d = (.ok es, d') ∧ Spells met c' d' := by
  have hfound := Table.get?_of_mem (Table.sharp_of_lawful q) h.sound.named_nodup hmem
  obtain ⟨spelled, hspelled, ha⟩ := h.stored hfound
  have hdefines := h.soundAfter.named_defines q spelled
    (Table.mem_of_get?_eq_some (Table.sharp_of_lawful q) hspelled)
  obtain ⟨n', hn'⟩ := hdefines.name
  -- both definitions have the full name again that they are stored under
  have hqualified : Name.ofNamed n attributes (Name.namespaceOf q) = .ok q :=
    ofNamed_of_full (objectShape_leaf hs).2.1 (h.sound.named_defines q attributes hmem).requalified
  obtain ⟨qualified, keywords, hq, hk, rfl, rfl⟩ := leaf_ok hok
  rw [hqualified] at hq
  cases hq
  refine ⟨d, ?_, ?_⟩
  · have hnode := outcome_leaf_of_restates ha hn' (objectShape_leaf hs).2.2
      (ofNamed_of_full hn' hdefines.requalified) hk d
    rw [addNamed_of_get? hspelled, ite_self] at hnode
    rw [outcome_typeName_of_unseen h.soundAfter hp hr (h.seen ▸ hunseen) hspelled]
    exact hnode
  · rw [addNamed_of_get? hfound, ite_self]
    exact h

/-- What is made of a name is made of the full name in its place. -/
theorem spelt_typeName (h : Spells met c d)
    (hok : outcome (typeName options name enclosing) c = (.ok es, c')) :
    ∃ d', outcome (typeName options (met.spell name enclosing) enclosing) d = (.ok es, d')
      ∧ Spells met c' d' := by
  rcases typeName_ok h.sound hok with ⟨p, hp, rfl, rfl⟩ | ⟨q, hp, hr, hcases⟩
  · have hname : met.spell name enclosing = name := by
      rw [Met.spell, hp, Option.isSome_some, if_pos rfl]
    refine ⟨d, ?_, h⟩
    rw [hname, outcome_typeName, hp]
  · obtain ⟨hfull, hself⟩ := h.fullName_of_resolve hr
    have hname : met.spell name enclosing = q := by
      rw [Met.spell, hp, Option.isSome_none, if_neg Bool.false_ne_true, hfull]
    have hprimitive : Primitive.ofText? q = none := by
      rcases spell_cases met name enclosing with hsame | ⟨-, hdotted⟩
      · rw [← hname, hsame, hp]
      · rw [← hname]
        exact ofText?_of_defined (ofText_of_dotted hdotted)
    have hresolve : d.resolve q enclosing = .ok q := (h.resolve q enclosing).trans hself
    rw [hname]
    rcases hcases with ⟨hseen, hreference⟩ | ⟨hunseen, kind, n, attributes, hmem, hs, hleaf⟩
    · obtain ⟨rfl, rfl⟩ := reference_ok hreference
      refine ⟨d, ?_, h⟩
      rw [outcome_typeName, hprimitive, hresolve]
      dsimp only
      rw [if_pos (h.seen ▸ hseen), outcome_reference]
      rfl
    · exact spelt_stored h hprimitive hresolve hunseen hmem hs hleaf

/-- A definition under its full name is the definition, spelled out. -/
theorem restates_named (name : Text) (attributes : Json.Entries) :
    Restates attributes (named name attributes) :=
  ⟨alike_named name attributes, attr?_named_of_ne (by decide) (by decide) name attributes⟩

theorem ofNamed_named (name : Text) (attributes : Json.Entries) (enclosing : Text) :
    Name.ofNamed name (named name attributes) enclosing = .ok name :=
  ofNamed_of_kept fun hd => attr?_named_namespace hd attributes

theorem spelt_leaf {kind : Leaf} (hs : objectShape attributes = .leaf kind name attributes) :
    Spelt options (.obj attributes) := by
  intro enclosing met c d es c' h hok
  have hnode : Conversion.node options (.obj attributes) enclosing = _ := node_of_leaf hs
  rw [hnode] at hok
  obtain ⟨-, hn, ht⟩ := objectShape_leaf hs
  obtain ⟨q, keywords, hq, hk, rfl, rfl⟩ := leaf_ok hok
  have ha := restates_named q attributes
  have hq' := ofNamed_named q attributes enclosing
  rw [node_leaf hs, (Naming.fullName_of_ofNamed hn hq).1]
  refine ⟨_, outcome_leaf_of_restates ha (attr?_named_name q attributes) ht hq' hk d, ?_⟩
  dsimp only
  cases hempty : q.isEmpty with
  | true =>
    rw [Met.define, hempty]
    exact h
  | false =>
    rw [Met.define, hempty]
    exact h.addNamed (defines_of_leaf hn ht hq)
      (defines_of_leaf (attr?_named_name q attributes) (ha.type.trans ht) hq')
      (not_isRecord_of_leaf ht) ha

/-! ### Unions -/

theorem spelt_branches {nodes list : List Json} (ih : ∀ j ∈ nodes, Spelt options j)
    (h : Spells met c d) (hok : outcome (branches options nodes enclosing) c = (.ok list, c')) :
    ∃ d', outcome (branches options (Spelling.nodes met enclosing nodes).1 enclosing) d
        = (.ok list, d')
      ∧ Spells (Spelling.nodes met enclosing nodes).2 c' d' := by
  induction nodes generalizing met c d list with
  | nil =>
    rw [branches_nil] at hok
    cases hok
    rw [nodes_nil, branches_nil]
    exact ⟨d, rfl, h⟩
  | cons j js ihs =>
    rw [branches_cons] at hok
    obtain ⟨es, c₁, hnode, htail⟩ := bind_ok hok
    obtain ⟨rest, hrest, rfl⟩ := map_ok htail
    obtain ⟨d₁, hfirst, h₁⟩ := ih j List.mem_cons_self _ _ _ _ _ _ h hnode
    obtain ⟨d', hlater, h'⟩ := ihs (fun i hi => ih i (List.mem_cons_of_mem _ hi)) h₁ hrest
    refine ⟨d', ?_, ?_⟩
    · rw [nodes_cons, branches_cons, bind_of_ok hfirst, outcome_map, hlater]
      rfl
    · rw [nodes_cons]
      exact h'

theorem spelt_nullable {members : List Json} {member : Json}
    (hu : unionForm members = .nullable member) (ih : Spelt options member) (h : Spells met c d)
    (hok : outcome (union options members enclosing) c = (.ok es, c')) :
    ∃ d', outcome (union options (Spelling.nodes met enclosing members).1 enclosing) d
        = (.ok es, d')
      ∧ Spells (Spelling.nodes met enclosing members).2 c' d' := by
  obtain ⟨hform, hmet⟩ := unionForm_nodes_of_nullable hu met enclosing
  rw [hmet]
  cases hf : options.flattenNullableUnions with
  | true =>
    have hflat : ∀ {members : List Json} {member : Json}, unionForm members = .nullable member →
        union options members enclosing = Conversion.node options member enclosing :=
      fun hu => union_of_flattened hu hf
    rw [hflat hu] at hok
    rw [hflat hform]
    exact ih _ _ _ _ _ _ h hok
  | false =>
    obtain ⟨k, hr, ⟨p, hp, rfl, rfl⟩ | ⟨hp, branch, hnode, rfl⟩⟩ := nullable_ok hu hf hok
    · obtain ⟨t, hkind, ht⟩ := kind_of_resolveKind h.sound hr hp
      rw [node_of_primitive_kind hkind ht] at hform ⊢
      exact ⟨d, union_of_scalar hform hf (resolveKind_of_primitive hkind ht) ht, h⟩
    · obtain ⟨d', hd', h'⟩ := ih _ _ _ _ _ _ h hnode
      obtain ⟨k₀, hk₀⟩ := kind_of_unionForm hu
      obtain ⟨k₁, hk₁, hsame⟩ := kind_node hk₀ met enclosing
      have hnone : primitiveOfKind? k₁ = none := by
        rcases hsame with rfl | ⟨-, hnone⟩
        · exact not_primitive_of_resolveKind hk₀ hr hp
        · exact hnone
      obtain ⟨k', hr', hp'⟩ := resolveKind_of_converted h.soundAfter hk₁ hnone hd'
      exact ⟨d', union_of_converted hform hf hr' hp' hd', h'⟩

theorem spelt_union {members : List Json} (ih : ∀ j ∈ members, Spelt options j)
    (h : Spells met c d) (hok : outcome (union options members enclosing) c = (.ok es, c')) :
    ∃ d', outcome (union options (Spelling.nodes met enclosing members).1 enclosing) d
        = (.ok es, d')
      ∧ Spells (Spelling.nodes met enclosing members).2 c' d' := by
  cases hu : unionForm members with
  | fault fault =>
    rw [union_of_fault hu] at hok
    cases hok
  | choice =>
    rw [union_of_choice hu] at hok
    obtain ⟨list, hbranches, rfl⟩ := map_ok hok
    obtain ⟨d', hd', h'⟩ := spelt_branches ih h hbranches
    refine ⟨d', ?_, h'⟩
    rw [union_of_choice (unionForm_nodes_of_choice hu met enclosing), outcome_map, hd']
    rfl
  | nullable member => exact spelt_nullable hu (ih member (mem_of_unionForm hu)) h hok

/-! ### Records -/

theorem spelt_fields {record : Text} {list : List Json} {properties : Json.Entries}
    {required : List Json} {made : Json.Entries × List Json}
    (ih : ∀ field ∈ list, ∀ attributes name type,
      fieldParts record field = .ok (attributes, name, type) → Spelt options type)
    (h : Spells met c d)
    (hok : outcome (Conversion.fields options record list properties required) c
      = (.ok made, c')) :
    ∃ d', outcome (Conversion.fields options record
        (Spelling.fields met (Name.namespaceOf record) list).1 properties required) d
        = (.ok made, d')
      ∧ Spells (Spelling.fields met (Name.namespaceOf record) list).2 c' d' := by
  induction list generalizing met c d properties required with
  | nil =>
    rw [Conversion.fields_nil] at hok
    cases hok
    rw [Spelling.fields_nil, Conversion.fields_nil]
    exact ⟨d, rfl, h⟩
  | cons field more ihs =>
    obtain ⟨attributes, fieldName, type, property, nullable, added, c₁, hp, hnode, hnull, hadd,
      hrest⟩ := fields_cons_ok hok
    obtain ⟨rfl, hn, ht⟩ := fieldParts_ok hp
    obtain ⟨d₁, hd₁, h₁⟩ := ih _ List.mem_cons_self _ _ _ hp _ _ _ _ _ _ h hnode
    obtain ⟨d', hd', h'⟩ := ihs (fun f hf => ih f (List.mem_cons_of_mem _ hf)) h₁ hrest
    rw [Spelling.fields_cons ht]
    refine ⟨d', ?_, h'⟩
    have hname : (attributes.put "type" (Spelling.node met (Name.namespaceOf record) type).1).attr?
        "name" = some fieldName :=
      (Json.Entries.attr?_put_of_ne (by decide) _ _).trans hn
    have hadded : ∀ value : Json,
        addField (attributes.put "type" value) fieldName nullable property properties required
          = .ok added := by
      intro value
      rw [← hadd]
      unfold addField
      rw [((Alike.refl attributes).put (by decide) value).decorate]
    rw [Conversion.fields_cons (fieldParts_of_attr? hname (Json.Entries.attr?_put_self _ _ _)),
      bind_of_ok hd₁, ofExcept_bind_of_ok (isNullable_node hnull _ _),
      ofExcept_bind_of_ok (hadded _)]
    exact hd'

/-- A record that has been entered before is a reference under its full name too. -/
theorem spelt_entered {q : Text} (hs : shape (.obj attributes) = .record name attributes)
    (hq : Name.ofNamed name attributes enclosing = .ok q) (h : Spells met c d) (hseen : q ∈ c.seen)
    (hok : outcome (reference options q) c = (.ok es, c')) :
    ∃ d', outcome (Conversion.node options
          (Spelling.node met enclosing (.obj attributes)).1 enclosing) d = (.ok es, d')
      ∧ Spells (Spelling.node met enclosing (.obj attributes)).2 c' d' := by
  obtain ⟨-, hn, hr⟩ := isRecord_of_shape hs
  have hname := (Naming.fullName_of_ofNamed hn hq).1
  have hmet : Naming.fullName attributes enclosing ∈ met.records := hname ▸ (h.records q).2 hseen
  have hspelled : shape (.obj (named q attributes)) = .record q (named q attributes) :=
    objectShape_of_record ((restates_named q attributes).isRecord_iff.2 hr)
      (attr?_named_name q attributes)
  obtain ⟨rfl, rfl⟩ := reference_ok hok
  rw [node_entered hs hmet, hname]
  refine ⟨d, ?_, h⟩
  rw [outcome_record hspelled, ofNamed_named]
  dsimp only
  rw [if_pos (h.seen ▸ hseen)]
  rfl

/-- A record that is entered under its full name has the same keywords. -/
theorem spelt_new {q : Text} {list : List Json} {made : Json.Entries × List Json}
    (hs : shape (.obj attributes) = .record name attributes)
    (hq : Name.ofNamed name attributes enclosing = .ok q)
    (ih : ∀ j, Child j (.obj attributes) → Spelt options j) (h : Spells met c d)
    (hnew : q ∉ c.seen) (hl : attributes.attr? "fields" = some (.arr list))
    (hok : outcome (Conversion.fields options q list [] []) (c.enter q attributes)
      = (.ok made, c')) :
    ∃ d', outcome (Conversion.node options
          (Spelling.node met enclosing (.obj attributes)).1 enclosing) d
        = (.ok (recordKeywords options q attributes made.1 made.2), d')
      ∧ Spells (Spelling.node met enclosing (.obj attributes)).2
        (c'.define q (recordKeywords options q attributes made.1 made.2)) d' := by
  obtain ⟨-, hn, hr⟩ := isRecord_of_shape hs
  obtain ⟨hname, hspace⟩ := Naming.fullName_of_ofNamed hn hq
  have hmet : Naming.fullName attributes enclosing ∉ met.records := by
    rw [hname, h.records]
    exact hnew
  rw [node_record hs hmet hl, hname, hspace]
  dsimp only
  -- the record under its full name, with its fields spelled out
  let spelled : Json.Entries := Json.Entries.put "fields"
    (.arr (Spelling.fields (met.enter q) (Name.namespaceOf q) list).1) (named q attributes)
  have hput : ∀ other : Text, Text.ofString "fields" ≠ other →
      spelled.attr? other = (named q attributes).attr? other :=
    fun other hne => Json.Entries.attr?_put_of_ne hne _ _
  have ha : Restates attributes spelled :=
    ⟨(alike_named q attributes).put (by decide) _,
      (hput _ (by decide)).trans (restates_named q attributes).type⟩
  have hrecord : shape (.obj spelled) = .record q spelled :=
    objectShape_of_record (ha.isRecord_iff.2 hr)
      ((hput _ (by decide)).trans (attr?_named_name q attributes))
  have hfull : Name.ofNamed q spelled enclosing = .ok q :=
    ofNamed_of_kept fun hd => (hput _ (by decide)).trans (attr?_named_namespace hd attributes)
  have hentered : Spells (met.enter q) (c.enter q attributes) (d.enter q spelled) :=
    h.enter (defines_of_record hs hq) (defines_of_record hrecord hfull) hnew ha
  obtain ⟨d', hd', h'⟩ := spelt_fields
    (fun field hfield es n type hp => ih type (child_of_field hs hl hfield hp)) hentered hok
  have hseen : q ∈ c'.seen := by
    have hfields : Evolving (Conversion.fields options q list [] []) :=
      evolving_fields (fun _ _ _ _ type _ enclosing => evolving_node type enclosing) [] []
    exact (hfields.of_ok hentered.sound hok).seen_subset
      (List.mem_append_right _ List.mem_cons_self)
  obtain ⟨l, hlist, hl'⟩ := fieldList_of_attr? q
    (Json.Entries.attr?_put_self "fields"
      (.arr (Spelling.fields (met.enter q) (Name.namespaceOf q) list).1) (named q attributes))
  refine ⟨d'.define q (recordKeywords options q attributes made.1 made.2), ?_, h'.define hseen _⟩
  rw [outcome_record hrecord, hfull]
  dsimp only
  rw [if_neg (h.seen ▸ hnew), outcome_recordBody, hlist]
  dsimp only
  rw [hl', hd']
  dsimp only
  rw [ha.alike.recordKeywords]
  rfl

theorem spelt_record (hs : shape (.obj attributes) = .record name attributes)
    (ih : ∀ j, Child j (.obj attributes) → Spelt options j) : Spelt options (.obj attributes) := by
  intro enclosing met c d es c' h hok
  obtain ⟨q, hq, ⟨hseen, hreference⟩ | ⟨hnew, list, made, c₁, hl, hf, rfl, rfl⟩⟩ := record_ok hs hok
  · exact spelt_entered hs hq h hseen hreference
  · exact spelt_new hs hq ih h hnew (fieldList_ok hl) hf

/-! ### Nodes -/

theorem spelt_array {items : Json} (hs : objectShape attributes = .array items attributes)
    (ih : Spelt options items) : Spelt options (.obj attributes) := by
  intro enclosing met c d es c' h hok
  have hnode : Conversion.node options (.obj attributes) enclosing = _ := node_of_array hs
  rw [hnode] at hok
  obtain ⟨inner, hi, rfl⟩ := map_ok hok
  obtain ⟨d', hd', h'⟩ := ih _ _ _ _ _ _ h hi
  have hspelled : shape (.obj (attributes.put "items" (Spelling.node met enclosing items).1)) = _ :=
    objectShape_of_array ((Json.Entries.attr?_put_of_ne (by decide) _ _).trans (type_of_array hs))
      (Json.Entries.attr?_put_self _ _ _)
  have ha := (Alike.refl attributes).put (by decide : Text.ofString "items" ∈ changed)
    (Spelling.node met enclosing items).1
  rw [node_array hs]
  refine ⟨d', ?_, h'⟩
  rw [node_of_array hspelled, outcome_map, hd', ← ha.arrayKeywords]
  rfl

theorem spelt_map {values : Json} (hs : objectShape attributes = .map values attributes)
    (ih : Spelt options values) : Spelt options (.obj attributes) := by
  intro enclosing met c d es c' h hok
  have hnode : Conversion.node options (.obj attributes) enclosing = _ := node_of_map hs
  rw [hnode] at hok
  obtain ⟨inner, hi, rfl⟩ := map_ok hok
  obtain ⟨d', hd', h'⟩ := ih _ _ _ _ _ _ h hi
  have hspelled : shape (.obj (attributes.put "values" (Spelling.node met enclosing values).1)) = _ :=
    objectShape_of_map ((Json.Entries.attr?_put_of_ne (by decide) _ _).trans (type_of_map hs))
      (Json.Entries.attr?_put_self _ _ _)
  have ha := (Alike.refl attributes).put (by decide : Text.ofString "values" ∈ changed)
    (Spelling.node met enclosing values).1
  rw [node_map hs]
  refine ⟨d', ?_, h'⟩
  rw [node_of_map hspelled, outcome_map, hd', ← ha.mapKeywords]
  rfl

theorem spelt_reference (hs : objectShape attributes = .reference name attributes) :
    Spelt options (.obj attributes) := by
  intro enclosing met c d es c' h hok
  have hnode : Conversion.node options (.obj attributes) enclosing = _ := node_of_reference hs
  rw [hnode] at hok
  obtain ⟨target, ht, rfl⟩ := map_ok hok
  obtain ⟨d', hd', h'⟩ := spelt_typeName h ht
  have hdefined : TypeName.ofText (met.spell name enclosing)
      = .defined (met.spell name enclosing) := by
    rcases spell_cases met name enclosing with hsame | ⟨-, hdotted⟩
    · rw [hsame]
      exact (type_of_reference hs).2
    · exact ofText_of_dotted hdotted
  have hspelled : shape (.obj (attributes.put "type" (.str (met.spell name enclosing)))) = _ :=
    shape_of_defined (Json.Entries.attr?_put_self _ _ _) hdefined
  have ha := (Alike.refl attributes).put (by decide : Text.ofString "type" ∈ changed)
    (.str (met.spell name enclosing))
  rw [node_reference hs]
  refine ⟨d', ?_, h'⟩
  rw [node_of_reference hspelled, outcome_map, hd', ← ha.referenceKeywords]
  rfl

/-- **What is made of a node is made of the node spelled out**, wherever it stands and whatever has
been met. -/
theorem spelt_node (schema : Json) : Spelt options schema := by
  induction schema using Schema.induction with
  | step schema ih =>
    intro enclosing met c d es c' h hok
    cases hs : shape schema with
    | malformed fault =>
      rw [node_of_malformed hs] at hok
      cases hok
    | union members =>
      obtain rfl := eq_arr_of_shape hs
      have hspelled : shape (.arr (Spelling.nodes met enclosing members).1)
          = .union (Spelling.nodes met enclosing members).1 := rfl
      rw [node_of_union hs] at hok
      rw [node_arr, node_of_union hspelled]
      exact spelt_union (fun j hj => ih j (.member hs hj)) h hok
    | name text =>
      obtain rfl := eq_str_of_shape hs
      have hspelled : shape (.str (met.spell text enclosing)) = .name (met.spell text enclosing) :=
        rfl
      rw [node_of_name hs] at hok
      rw [node_str, node_of_name hspelled]
      exact spelt_typeName h hok
    | wrapper inner =>
      obtain ⟨attributes, rfl, -⟩ := fits_of_shape hs (by simp) (by simp) (by simp)
      rw [node_of_wrapper hs] at hok
      rw [node_wrapper hs, node_of_wrapper (shape_wrapper hs)]
      exact ih inner (.inner hs) _ _ _ _ _ _ h hok
    | primitive p attributes =>
      obtain ⟨attributes, rfl, rfl⟩ := fits_of_shape hs (by simp) (by simp) (by simp)
      rw [node_of_primitive hs] at hok
      cases hok
      rw [node_primitive hs, node_of_primitive hs]
      exact ⟨d, rfl, h⟩
    | leaf kind text attributes =>
      obtain ⟨attributes, rfl, rfl⟩ := fits_of_shape hs (by simp) (by simp) (by simp)
      exact spelt_leaf hs _ _ _ _ _ _ h hok
    | array items attributes =>
      obtain ⟨attributes, rfl, rfl, -⟩ := fits_of_shape hs (by simp) (by simp) (by simp)
      exact spelt_array hs (ih items (.items hs)) _ _ _ _ _ _ h hok
    | map values attributes =>
      obtain ⟨attributes, rfl, rfl, -⟩ := fits_of_shape hs (by simp) (by simp) (by simp)
      exact spelt_map hs (ih values (.values hs)) _ _ _ _ _ _ h hok
    | reference text attributes =>
      obtain ⟨attributes, rfl, rfl⟩ := fits_of_shape hs (by simp) (by simp) (by simp)
      exact spelt_reference hs _ _ _ _ _ _ h hok
    | record text attributes =>
      obtain rfl := eq_obj_of_record hs
      exact spelt_record hs ih _ _ _ _ _ _ h hok

end Conversion

namespace Document

open Step Conversion

/-- **Spelling out all names changes nothing.**  If a schema has a document, it has the same one with
every definition under its full name and every reference to a full name. -/
theorem ofSchema_spelled_out (options : Options) (schema document : Json)
    (h : ofSchema options schema = .ok document) :
    ofSchema options (Spelling.out schema) = .ok document := by
  obtain ⟨root, c, hrun, rfl⟩ := ofSchema_ok h
  have hnode : outcome (Conversion.node options schema []) Context.empty = (.ok root, c) := hrun
  obtain ⟨d, hd, hspells⟩ := spelt_node schema [] .nothing _ _ _ _ .empty hnode
  have hrun' : run options (Spelling.out schema) = (.ok root, d) := hd
  have hheader : header options.draft d = header options.draft c := by
    unfold header definitionsTable
    rw [hspells.definitions]
  rw [ofSchema_eq, hrun']
  dsimp only
  rw [hheader]

/-- An order of a shop.  Its size is of the namespace around it, its mark of none. -/
def shortOrder : Json :=
  .obj [(.text "type", "record"), (.text "name", "Order"), (.text "namespace", "shop"),
    (.text "fields", .arr [
      .obj [(.text "name", "size"), (.text "type", .obj [(.text "type", "enum"),
        (.text "name", "Size"), (.text "symbols", .arr ["S", "L"])])],
      .obj [(.text "name", "mark"), (.text "type", .obj [(.text "type", "fixed"),
        (.text "name", "Mark"), (.text "namespace", .null), (.text "size", .int 2)])],
      .obj [(.text "name", "next"), (.text "type", .arr ["null", "Order"])],
      .obj [(.text "name", "others"), (.text "type", .obj [(.text "type", "map"),
        (.text "values", .obj [(.text "type", "Size"), (.text "doc", "of each")])])],
      .obj [(.text "name", "stamp"), (.text "type", "Mark")]])]

/-- The same order by full names. -/
def fullOrder : Json :=
  .obj [(.text "type", "record"), (.text "name", "shop.Order"),
    (.text "fields", .arr [
      .obj [(.text "name", "size"), (.text "type", .obj [(.text "type", "enum"),
        (.text "name", "shop.Size"), (.text "symbols", .arr ["S", "L"])])],
      .obj [(.text "name", "mark"), (.text "type", .obj [(.text "type", "fixed"),
        (.text "name", "Mark"), (.text "namespace", ""), (.text "size", .int 2)])],
      .obj [(.text "name", "next"), (.text "type", .arr ["null", "shop.Order"])],
      .obj [(.text "name", "others"), (.text "type", .obj [(.text "type", "map"),
        (.text "values", .obj [(.text "type", "shop.Size"), (.text "doc", "of each")])])],
      .obj [(.text "name", "stamp"), (.text "type", "Mark")]])]

theorem ofSchema_spelled_out_order :
    ∃ document, ofSchema Options.strict shortOrder = .ok document
      ∧ Spelling.out shortOrder = fullOrder
      ∧ ofSchema Options.strict fullOrder = .ok document := by
  have hok : (ofSchema Options.strict shortOrder).toBool = true := by decide +kernel
  have hout : Spelling.out shortOrder = fullOrder := by with_unfolding_all rfl
  cases hd : ofSchema Options.strict shortOrder with
  | error fault =>
    rw [hd] at hok
    cases hok
  | ok document =>
    have hsame := ofSchema_spelled_out Options.strict shortOrder document hd
    rw [hout] at hsame
    exact ⟨document, rfl, hout, hsame⟩

end Document

end AvroJsonSchema
