import AvroJsonSchema.Proofs.FieldRuns
import AvroJsonSchema.Proofs.Headers
import AvroJsonSchema.Proofs.Keys

/-!
# Where a node is written

A node is converted at one moment and stands at one place of the document: as the whole schema, under
the keyword of a container, in a choice, or as the property of a field.  A wrapper and a union that is
flattened stand at no place of their own.  Only a field changes what was made of its type, by its doc
and its default, and it does so before anything else is made of the record around it.  So the keywords
of a node stay as they are from the moment they are made until the document is done, unless a later
field of the same record has the same name and takes the place of the property.

* **`Json.Turn`**, **`Json.Entries.find?`**: the way from the keywords of a schema down to others.
* **`Place`**, **`Place.write`**: what stands at a place for some keywords.
* **`Conversion.Occurs`**: a node comes to be converted, and where it is written.
* **`Conversion.default_node`**: no node is converted to a default.
* **`Conversion.Occurs.written`**: what is made of a node stands at its place in the document.
-/

namespace AvroJsonSchema

open Schema Step

/-! ### Places -/

namespace Json

/-- What an object holds. -/
def entries? : Json → Option Entries
  | .obj entries => some entries
  | _ => none

/-- A turn on the way down, from the keywords of a schema to those of a schema inside. -/
inductive Turn where
  /-- The items of an array. -/
  | items
  /-- The values of a map. -/
  | values
  /-- A branch of a choice. -/
  | branch (n : Nat)
  /-- The property of a field. -/
  | property (key : Key)

/-- The keywords that a turn leads to. -/
def Turn.take? (turn : Turn) (keywords : Entries) : Option Entries :=
  match turn with
  | .items => (keywords.attr? "items").bind entries?
  | .values => (keywords.attr? "additionalProperties").bind entries?
  | .branch n =>
    match keywords.attr? "oneOf" with
    | some (.arr branches) => branches[n]?.bind entries?
    | _ => none
  | .property key =>
    match keywords.attr? "properties" with
    | some (.obj properties) => (Table.get? key properties).bind entries?
    | _ => none

/-- The keywords at the end of a way. -/
def Entries.find? : List Turn → Entries → Option Entries
  | [], keywords => some keywords
  | turn :: way, keywords => (turn.take? keywords).bind (find? way)

theorem Entries.find?_append (way more : List Turn) (keywords : Entries) :
    find? (way ++ more) keywords = (find? way keywords).bind (find? more) := by
  induction way generalizing keywords with
  | nil => rfl
  | cons turn way ih =>
    rw [List.cons_append, find?, find?]
    cases turn.take? keywords with
    | none => rfl
    | some inner => exact ih inner

/-- Keywords with the same structure lead to the same keywords. -/
theorem Turn.take?_congr {keywords keywords' : Entries}
    (h : ∀ name, Text.ofString "description" ≠ name → Text.ofString "default" ≠ name →
      keywords.attr? name = keywords'.attr? name) (turn : Turn) :
    turn.take? keywords = turn.take? keywords' := by
  cases turn <;> unfold take? <;> dsimp only <;> rw [h _ (by decide) (by decide)]

end Json

open Json

/-- What a node is in the schema around it. -/
inductive Role where
  /-- The whole schema. -/
  | root
  /-- The items of an array, the values of a map, or a member of a union. -/
  | inside
  /-- The type of a field. -/
  | property (field : Entries)

/-- What stands for some keywords: the same, but for the type of a field the description is set to the
doc of the field if there is one, and the default of the field comes last if there is one. -/
def Role.write (role : Role) (keywords : Entries) : Entries :=
  match role with
  | .property field =>
    Keywords.describe field keywords
      ++ match field.attr? "default" with
        | some value => [(.text "default", value)]
        | none => []
  | _ => keywords

/-- The default that stands for some keywords without one. -/
def Role.default? : Role → Option Json
  | .property field => Entries.attr? "default" field
  | _ => none

/-- Some fields have one with the name of a key. -/
def hasNamed (key : Key) (fields : List Json) : Bool :=
  fields.any fun field =>
    match field with
    | .obj attributes => ((Entries.attr? "name" attributes).bind toKey?).any (· == key)
    | _ => false

/-- Where a node is written. -/
structure Place where
  role : Role
  /-- The way from the root of the document. -/
  way : List Turn
  /-- No property on the way is replaced by that of a later field of the same name. -/
  kept : Bool

namespace Place

/-- The place of the whole schema. -/
def root : Place := ⟨.root, [], true⟩

/-- The place that a turn leads to, other than a property. -/
def turn (place : Place) (turn : Turn) : Place :=
  ⟨.inside, place.way ++ [turn], place.kept⟩

/-- The place of the property of a field before some others. -/
def property (place : Place) (field : Entries) (key : Key) (later : List Json) : Place :=
  ⟨.property field, place.way ++ [.property key], place.kept && !hasNamed key later⟩

end Place

namespace Keywords

/-- Some keywords without a default have that of a field at the end. -/
theorem decorate_eq_write {keywords : Entries} (h : keywords.attr? "default" = none)
    (field : Entries) : decorate field keywords = (Role.property field).write keywords := by
  have hsharp : Table.Sharp (Key.text (Text.ofString "default")) := Key.sharp_text _
  have hdescribed : (describe field keywords).attr? "default" = none :=
    (attr?_describe_of_ne (by decide)).trans h
  have habsent : Key.text (Text.ofString "default") ∉ (describe field keywords).keys :=
    (Table.get?_eq_none_iff hsharp).1 hdescribed
  unfold decorate Role.write
  dsimp only
  cases Entries.attr? "default" field with
  | some value =>
    dsimp only
    rw [Table.erase_of_get?_eq_none hdescribed]
    exact Table.set_of_not_mem hsharp habsent _
  | none => exact (List.append_nil _).symm

theorem attr?_write_of_ne {keywords : Entries} (h : keywords.attr? "default" = none) (role : Role)
    {name : Text} (hd : Text.ofString "description" ≠ name)
    (hdefault : Text.ofString "default" ≠ name) :
    (role.write keywords).attr? name = keywords.attr? name := by
  cases role with
  | property field =>
    rw [← decorate_eq_write h]
    exact attr?_decorate_of_ne hd hdefault field
  | _ => rfl

/-- A default stands where a field has one, and nowhere else. -/
theorem attr?_default_write {keywords : Entries} (h : keywords.attr? "default" = none)
    (role : Role) : (role.write keywords).attr? "default" = role.default? := by
  cases role with
  | property field =>
    rw [← decorate_eq_write h]
    unfold decorate Role.default?
    dsimp only
    split
    · rename_i value hvalue
      rw [hvalue]
      exact Entries.attr?_put_self _ _ _
    · rename_i hnone
      rw [hnone, attr?_describe_of_ne (by decide), h]
  | _ => exact h

theorem attr?_default_annotate (attributes : Entries) {keywords : Entries}
    (h : keywords.attr? "default" = none) : (annotate attributes keywords).attr? "default" = none :=
  (attr?_annotate_of_none (customProperty?_of_reserved (by decide) attributes) (by decide)).trans h

end Keywords

/-! ### No node has a default -/

namespace Conversion

open Keywords

variable {setup : Setup} {enclosing : Text} {c c' : Context} {es : Entries} {schema : Json}

theorem default_typeName {name : Text} (hc : c.Sound)
    (h : outcome (typeName setup name enclosing) c = (.ok es, c')) :
    es.attr? "default" = none := by
  have hgenerated : ∀ {keywords : Entries}, keywords.KeysAmong generated →
      keywords.attr? "default" = none := fun hk => hk.attr?_eq_none (by decide)
  rcases typeName_ok hc h with ⟨p, -, rfl, -⟩ | ⟨q, -, -, ⟨-, hok⟩ | ⟨-, _, _, _, -, -, hok⟩⟩
  · exact hgenerated (generated_apply (by simp [Entries.KeysAmong]) _ _)
  · rw [outcome_reference] at hok
    cases hd : setup.draftFor "ref_prefix" with
    | error fault =>
      rw [hd] at hok
      cases hok
    | ok draft =>
      rw [hd] at hok
      cases hok
      rfl
  · obtain ⟨qualified, keywords, -, hk, rfl, -⟩ := leaf_ok hok
    exact attr?_default_annotate _ (hgenerated (generated_leafKeywords hk))

/-- **No node is converted to a default**: the attribute of this name is never carried over. -/
theorem default_node (hc : c.Sound) (h : outcome (node setup schema enclosing) c = (.ok es, c')) :
    es.attr? "default" = none := by
  have hgenerated : ∀ {keywords : Entries}, keywords.KeysAmong generated →
      keywords.attr? "default" = none := fun hk => hk.attr?_eq_none (by decide)
  induction schema using Schema.induction generalizing es c' with
  | step schema ih =>
    cases hs : shape schema with
    | malformed fault =>
      rw [node_of_malformed hs] at h
      cases h
    | name name =>
      rw [node_of_name hs] at h
      exact default_typeName hc h
    | wrapper inner =>
      rw [node_of_wrapper hs] at h
      exact ih inner (.inner hs) h
    | primitive p attributes =>
      rw [node_of_primitive hs] at h
      cases h
      exact attr?_default_annotate _ (hgenerated (generated_apply generated_ofLogicalType _ _))
    | leaf kind name attributes =>
      rw [node_of_leaf hs] at h
      obtain ⟨qualified, keywords, -, hk, rfl, -⟩ := leaf_ok h
      exact attr?_default_annotate _ (hgenerated (generated_leafKeywords hk))
    | array items attributes =>
      rw [node_of_array hs] at h
      obtain ⟨inner, -, rfl⟩ := map_ok h
      exact attr?_default_annotate _ (hgenerated ((generated_withType _).put (by decide) _))
    | map values attributes =>
      rw [node_of_map hs] at h
      obtain ⟨inner, -, rfl⟩ := map_ok h
      exact attr?_default_annotate _ (hgenerated ((generated_withType _).put (by decide) _))
    | reference name attributes =>
      rw [node_of_reference hs] at h
      obtain ⟨target, ht, rfl⟩ := map_ok h
      have hmerged : Entries.attr? "default" ((ofLogicalType setup.options attributes).mergeAbsent
          target) = none := by
        refine (Table.get?_mergeAbsent (Key.sharp_text _) _ _).trans ?_
        rw [Option.or_eq_none_iff]
        exact ⟨hgenerated generated_ofLogicalType, default_typeName hc ht⟩
      exact attr?_default_annotate _ hmerged
    | record name attributes =>
      obtain ⟨q, -, ⟨-, hreference⟩ | ⟨-, list, made, c₁, -, -, rfl, -⟩⟩ := record_ok hs h
      · rw [outcome_reference] at hreference
        cases hd : setup.draftFor "ref_prefix" <;> rw [hd] at hreference <;> cases hreference
        rfl
      · exact attr?_default_annotate _ (hgenerated (generated_recordFrame _ _ _))
    | union members =>
      rw [node_of_union hs] at h
      cases hu : unionForm members with
      | fault fault =>
        rw [union_of_fault hu] at h
        cases h
      | choice =>
        rw [union_of_choice hu] at h
        obtain ⟨branches, -, rfl⟩ := map_ok h
        exact hgenerated (generated_oneOf _)
      | nullable member =>
        cases hf : setup.options.flattenNullableUnions with
        | true =>
          rw [union_of_flattened hu hf] at h
          exact ih member (.member hs (mem_of_unionForm hu)) h
        | false => exact hgenerated (generated_of_nullable hu hf h)

/-! ### Where nodes are written -/

/-- While a whole schema is converted, a node comes to be converted within a namespace and from a
context, and what is made of it is written at a place. -/
inductive Occurs (options : Options) (whole : Json) : Json → Text → Context → Place → Prop
  | whole : Occurs options whole whole [] Context.empty .root
  | inner {schema j : Json} {enclosing : Text} {c : Context} {place : Place} :
      Occurs options whole schema enclosing c place → shape schema = .wrapper j →
      Occurs options whole j enclosing c place
  | flattened {schema j : Json} {enclosing : Text} {c : Context} {place : Place}
      {members : List Json} :
      Occurs options whole schema enclosing c place → shape schema = .union members →
      unionForm members = .nullable j → options.flattenNullableUnions = true →
      Occurs options whole j enclosing c place
  | items {schema j : Json} {enclosing : Text} {c : Context} {place : Place} {attributes : Entries} :
      Occurs options whole schema enclosing c place → shape schema = .array j attributes →
      Occurs options whole j enclosing c (place.turn .items)
  | values {schema j : Json} {enclosing : Text} {c : Context} {place : Place} {attributes : Entries} :
      Occurs options whole schema enclosing c place → shape schema = .map j attributes →
      Occurs options whole j enclosing c (place.turn .values)
  | beside {schema j k : Json} {enclosing : Text} {c : Context} {place : Place}
      {members : List Json} :
      Occurs options whole schema enclosing c place → shape schema = .union members →
      unionForm members = .nullable j → options.flattenNullableUnions = false →
      c.resolveKind j enclosing = .ok k → primitiveOfKind? k = none →
      Occurs options whole j enclosing c (place.turn (.branch 1))
  | branch {schema j : Json} {enclosing : Text} {c c' : Context} {place : Place}
      {before after first : List Json} :
      Occurs options whole schema enclosing c place → shape schema = .union (before ++ j :: after) →
      unionForm (before ++ j :: after) = .choice →
      outcome (branches options before enclosing) c = (.ok first, c') →
      Occurs options whole j enclosing c' (place.turn (.branch before.length))
  | field {schema j field fieldName : Json} {enclosing name qualified : Text} {c c' : Context}
      {place : Place} {attributes fieldAttributes : Entries} {before after : List Json}
      {made : Entries × List Json} {key : Key} :
      Occurs options whole schema enclosing c place → shape schema = .record name attributes →
      Name.ofNamed name attributes enclosing = .ok qualified → qualified ∉ c.seen →
      attributes.attr? "fields" = some (.arr (before ++ field :: after)) →
      outcome (fields options qualified before [] []) (c.enter qualified attributes)
        = (.ok made, c') →
      fieldParts qualified field = .ok (fieldAttributes, fieldName, j) →
      fieldName.toKey? = some key →
      Occurs options whole j (Name.namespaceOf qualified) c'
        (place.property fieldAttributes key after)

/-- A node that occurs stands in the schema. -/
theorem Occurs.stands_below {options : Options} {whole : Json} {place : Place}
    (h : Occurs options whole schema enclosing c place) : Below schema whole := by
  induction h with
  | whole => exact .self _
  | inner _ hs ih => exact ih.trans (Child.inner hs).below
  | flattened _ hs hu _ ih => exact ih.trans (Child.member hs (mem_of_unionForm hu)).below
  | items _ hs ih => exact ih.trans (Child.items hs).below
  | values _ hs ih => exact ih.trans (Child.values hs).below
  | beside _ hs hu _ _ _ ih => exact ih.trans (Child.member hs (mem_of_unionForm hu)).below
  | branch _ hs _ _ ih => exact ih.trans (Child.member hs (by simp)).below
  | field _ hs _ _ hl _ hp _ ih => exact ih.trans (child_of_field hs hl (by simp) hp).below

/-- What has been made of a node: it is not undone until the end, and it stands at the place of the
node in the document. -/
structure Written (options : Options) (root : Entries) (final : Context) (schema : Json)
    (enclosing : Text) (c : Context) (place : Place) (es : Entries) : Prop where
  sound : c.Sound
  made : ∃ c', outcome (node options schema enclosing) c = (.ok es, c')
    ∧ c'.definitions <+: final.definitions
  found : place.kept = true → root.find? place.way = some (place.role.write es)

section Written

variable {options : Options} {whole : Json} {root : Entries} {final : Context} {place : Place}

/-- A turn from what stands at a place leads to what stands there. -/
theorem Written.take (h : Written options root final schema enclosing c place es) {turn : Turn}
    {inner : Entries} (ht : turn.take? es = some inner) (hkept : place.kept = true) :
    root.find? (place.way ++ [turn]) = some inner := by
  obtain ⟨c', hok, -⟩ := h.made
  have hnone := default_node h.sound hok
  have hsame : turn.take? (place.role.write es) = turn.take? es :=
    Turn.take?_congr (fun name hd hdefault => attr?_write_of_ne hnone _ hd hdefault) turn
  rw [Entries.find?_append, h.found hkept]
  show (turn.take? (place.role.write es)).bind _ = _
  rw [hsame, ht]
  rfl

/-- A custom property does not take the place of a structural keyword. -/
theorem attr?_annotate_of_unambiguous {attributes keywords : Entries} (ha : Unambiguous attributes)
    {name : Text} (hn : name ∈ structuralKeywords) (hd : Text.ofString "description" ≠ name) :
    (annotate attributes keywords).attr? name = keywords.attr? name := by
  refine attr?_annotate_of_none ?_ hd
  exact Table.get?_merge_of_absent (Key.sharp_text name) fun e he => ha e he name hn

theorem take?_arrayKeywords {attributes inner : Entries} (ha : Unambiguous attributes) :
    Turn.items.take? (arrayKeywords options attributes inner) = some inner := by
  have hitems : (arrayKeywords options attributes inner).attr? "items" = some (.obj inner) :=
    (attr?_annotate_of_unambiguous ha (by decide) (by decide)).trans (Entries.attr?_put_self _ _ _)
  unfold Turn.take?
  dsimp only
  rw [hitems]
  rfl

theorem take?_mapKeywords {attributes inner : Entries} (ha : Unambiguous attributes) :
    Turn.values.take? (mapKeywords options attributes inner) = some inner := by
  have hvalues : (mapKeywords options attributes inner).attr? "additionalProperties" =
      some (.obj inner) :=
    (attr?_annotate_of_unambiguous ha (by decide) (by decide)).trans (Entries.attr?_put_self _ _ _)
  unfold Turn.take?
  dsimp only
  rw [hvalues]
  rfl

theorem take?_recordKeywords {attributes properties : Entries} {qualified : Text}
    {required : List Json} (ha : Unambiguous attributes) (key : Key) :
    (Turn.property key).take? (recordKeywords options qualified attributes properties required) =
      (Table.get? key properties).bind entries? := by
  have hproperties : (recordKeywords options qualified attributes properties required).attr?
      "properties" = some (.obj properties) :=
    (attr?_annotate_of_unambiguous ha (by decide) (by decide)).trans (properties_recordFrame _ _ _)
  unfold Turn.take?
  dsimp only
  rw [hproperties]

theorem length_branches {nodes branches : List Json}
    (h : outcome (Conversion.branches setup nodes enclosing) c = (.ok branches, c')) :
    branches.length = nodes.length := by
  induction nodes generalizing branches c with
  | nil =>
    rw [branches_nil] at h
    cases h
    rfl
  | cons j js ih =>
    rw [branches_cons] at h
    obtain ⟨first, c₁, -, htail⟩ := bind_ok h
    obtain ⟨rest, hrest, rfl⟩ := map_ok htail
    rw [List.length_cons, List.length_cons, ih hrest]

/-- The member of a choice after some others is made into the branch after theirs. -/
theorem branch_written {j : Json} {before after first : List Json}
    (hw : Written options root final schema enclosing c place es)
    (hs : shape schema = .union (before ++ j :: after))
    (hu : unionForm (before ++ j :: after) = .choice)
    (hbefore : outcome (branches options before enclosing) c = (.ok first, c')) :
    ∃ inner, Written options root final j enclosing c' (place.turn (.branch before.length)) inner := by
  obtain ⟨c₂, hok, hkept⟩ := hw.made
  rw [node_of_union hs, union_of_choice hu] at hok
  obtain ⟨converted, hall, rfl⟩ := map_ok hok
  rw [branches_append] at hall
  obtain ⟨first', c₁, hfirst, htail⟩ := bind_ok hall
  cases hbefore.symm.trans hfirst
  obtain ⟨rest, hrest, rfl⟩ := map_ok htail
  rw [branches_cons] at hrest
  obtain ⟨inner, c₃, hnode, hafter⟩ := bind_ok hrest
  obtain ⟨more, hmore, rfl⟩ := map_ok hafter
  have hsound := ((evolving_branches fun j _ => evolving_node j).of_ok hw.sound hbefore).sound
  have hnext := (evolving_node j enclosing).of_ok hsound hnode
  have hlater := (evolving_branches fun j _ => evolving_node j).of_ok hnext.sound hmore
  refine ⟨inner, hsound, ⟨c₃, hnode, hlater.definitions_grow.trans hkept⟩, hw.take ?_⟩
  show ((first ++ .obj inner :: more)[before.length]?).bind entries? = _
  rw [← length_branches hbefore, List.getElem?_append_right (Nat.le_refl _), Nat.sub_self]
  rfl

/-- The keys of a run are those of its fields. -/
theorem FieldRun.not_same {record : Text} {list : List Json} {run : List (Key × Entries)}
    {names : List Json} (h : FieldRun setup record list c run names c') {key : Key}
    (hkey : hasNamed key list = false) : ∀ e ∈ propertyEntries run, ¬(e.1 == key) = true := by
  induction h with
  | nil =>
    intro e he
    cases he
  | @cons field name type more required attributes property other _ rest _ _ _ hp hother _ _ _ ih =>
    obtain ⟨rfl, hn, -⟩ := fieldParts_ok hp
    rw [hasNamed, List.any_cons, Bool.or_eq_false_iff] at hkey
    obtain ⟨hfirst, hmore⟩ := hkey
    dsimp only at hfirst
    rw [hn, Option.bind_some, hother] at hfirst
    intro e he
    rcases List.mem_cons.1 he with rfl | he
    · exact Bool.eq_false_iff.1 hfirst
    · exact ih hmore e he

/-- The type of a field after some others is made into its property. -/
theorem field_written {j field fieldName : Json} {name qualified : Text}
    {attributes fieldAttributes : Entries} {before after : List Json} {made : Entries × List Json}
    (hw : Written options root final schema enclosing c place es)
    (ha : Unambiguous attributes) (hs : shape schema = .record name attributes)
    (hq : Name.ofNamed name attributes enclosing = .ok qualified) (hseen : qualified ∉ c.seen)
    (hl : attributes.attr? "fields" = some (.arr (before ++ field :: after)))
    (hbefore : outcome (fields options qualified before [] []) (c.enter qualified attributes)
      = (.ok made, c'))
    (hp : fieldParts qualified field = .ok (fieldAttributes, fieldName, j)) :
    ∃ key inner, fieldName.toKey? = some key
      ∧ Written options root final j (Name.namespaceOf qualified) c'
        (place.property fieldAttributes key after) inner := by
  obtain ⟨c₂, hok, hkept⟩ := hw.made
  obtain ⟨q, hq', ⟨hseen', -⟩ | ⟨-, list, all, c₁, hlist, hall, rfl, rfl⟩⟩ := record_ok hs hok
  · cases hq.symm.trans hq'
    exact absurd hseen' hseen
  cases hq.symm.trans hq'
  have hfields : list.1 = before ++ field :: after :=
    Json.arr.inj (Option.some.inj ((fieldList_ok hlist).symm.trans hl))
  rw [hfields, fields_append] at hall
  obtain ⟨made', c₃, hfirst, htail⟩ := bind_ok hall
  cases hbefore.symm.trans hfirst
  obtain ⟨_, _, _, inner, nullable, added, c₄, hp', hnode, -, hadd, hrest⟩ := fields_cons_ok htail
  cases hp.symm.trans hp'
  obtain ⟨key, hkey, rfl⟩ := addField_ok hadd
  obtain ⟨run, names, hrun, rfl⟩ := fieldRun_of_ok hrest
  have hentered := hw.sound.enter (defines_of_record hs hq) hseen
  have hfirst := (evolving_fields (fun _ _ _ _ type _ => evolving_node type) _ _).of_ok hentered
    hbefore
  have hsound := hfirst.sound
  have hnext := (evolving_node j _).of_ok hsound hnode
  have hlater := hrun.evolves hnext.sound
  refine ⟨key, inner, hkey, hsound, ⟨c₄, hnode, ?_⟩, fun hkept => ?_⟩
  · -- the fields do not leave the record, so that its definition comes after theirs
    have hnew : qualified ∉ c₁.definitions.keys :=
      ((hfirst.trans hnext).trans hlater).not_defined
        (List.mem_append_right _ List.mem_cons_self) fun hmem => hseen (hw.sound.defined_seen _ hmem)
    exact hlater.definitions_grow.trans ((Context.define_grows hnew _).trans hkept)
  · obtain ⟨hplace, hkept⟩ := Bool.and_eq_true_iff.1 hkept
    have hother : hasNamed key after = false := by simpa using hkept
    have hproperty : Table.get? key ((made.1.set key (.obj (decorate fieldAttributes inner))).merge
        (propertyEntries run)) = some (.obj (decorate fieldAttributes inner)) := by
      rw [Table.get?_merge_of_not_same (hrun.not_same hother), Table.get?_set_same]
    show root.find? (place.way ++ [.property key]) =
      some ((Role.property fieldAttributes).write inner)
    rw [← decorate_eq_write (default_node hsound hnode)]
    refine hw.take ?_ hplace
    rw [take?_recordKeywords ha]
    dsimp only
    rw [hproperty]
    rfl

/-- **What is made of a node stands at its place in the document** that is made of the whole schema,
if no object has a custom property named like a structural keyword. -/
theorem Occurs.written (h : Occurs options whole schema enclosing c place)
    (hwhole : ∀ attributes, Below (.obj attributes) whole → Unambiguous attributes)
    (hrun : outcome (node options whole []) Context.empty = (.ok root, final)) :
    ∃ es, Written options root final schema enclosing c place es := by
  induction h with
  | whole => exact ⟨root, .empty, ⟨final, hrun, List.prefix_refl _⟩, fun _ => rfl⟩
  | inner _ hs ih =>
    obtain ⟨es, hw⟩ := ih
    exact ⟨es, hw.sound, node_of_wrapper hs ▸ hw.made, hw.found⟩
  | flattened _ hs hu hflatten ih =>
    obtain ⟨es, hw⟩ := ih
    have hmade := hw.made
    rw [node_of_union hs, union_of_flattened hu hflatten] at hmade
    exact ⟨es, hw.sound, hmade, hw.found⟩
  | items hn hs ih =>
    obtain ⟨es, hw⟩ := ih
    obtain ⟨c', hok, hkept⟩ := hw.made
    rw [node_of_array hs] at hok
    obtain ⟨inner, hinner, rfl⟩ := map_ok hok
    obtain ⟨_, rfl, rfl, -⟩ := fits_of_shape hs (by simp) (by simp) (by simp)
    exact ⟨inner, hw.sound, ⟨c', hinner, hkept⟩,
      hw.take (take?_arrayKeywords (hwhole _ hn.stands_below))⟩
  | values hn hs ih =>
    obtain ⟨es, hw⟩ := ih
    obtain ⟨c', hok, hkept⟩ := hw.made
    rw [node_of_map hs] at hok
    obtain ⟨inner, hinner, rfl⟩ := map_ok hok
    obtain ⟨_, rfl, rfl, -⟩ := fits_of_shape hs (by simp) (by simp) (by simp)
    exact ⟨inner, hw.sound, ⟨c', hinner, hkept⟩,
      hw.take (take?_mapKeywords (hwhole _ hn.stands_below))⟩
  | beside _ hs hu hflatten hk hp ih =>
    obtain ⟨es, hw⟩ := ih
    obtain ⟨c', hok, hkept⟩ := hw.made
    rw [node_of_union hs] at hok
    obtain ⟨k, hk', ⟨p, hp', -⟩ | ⟨-, branch, hbranch, rfl⟩⟩ := nullable_ok hu hflatten hok
    · cases Except.ok.inj (hk.symm.trans hk')
      cases hp.symm.trans hp'
    · exact ⟨branch, hw.sound, ⟨c', hbranch, hkept⟩, hw.take rfl⟩
  | branch _ hs hu hbefore ih =>
    obtain ⟨es, hw⟩ := ih
    exact branch_written hw hs hu hbefore
  | field hn hs hq hseen hl hbefore hp hkey ih =>
    obtain ⟨es, hw⟩ := ih
    have ha := hwhole _ (eq_obj_of_record hs ▸ hn.stands_below)
    obtain ⟨key, inner, hkey', hwritten⟩ := field_written hw ha hs hq hseen hl hbefore hp
    cases hkey.symm.trans hkey'
    exact ⟨inner, hwritten⟩

end Written

end Conversion

end AvroJsonSchema
