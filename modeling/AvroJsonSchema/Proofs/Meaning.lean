import AvroJsonSchema.Proofs.FieldRuns
import AvroJsonSchema.Proofs.Scopes

/-!
# Conversions write what schemas mean

Where unions are not flattened and no object has a logical type or a custom property, a node that
is converted means a type, and it is converted to keywords that write this type.  The conversion and
the reading of the node go on side by side: the scope fits the context before and after, and what
has been written in between is what there is to be written for the type.

* **`Conversion.Writes`**: what a conversion makes of a node writes the type that the node means.
* **`Conversion.writes_typeName`**, **`Conversion.writes_union`**, **`Conversion.writes_record`**:
  one lemma for each way a node is converted.
* **`Conversion.writes_node`**: every node that is converted is written.
-/

namespace AvroJsonSchema

open Schema AvroType JsonSchema

/-- Every object that stands in a schema is bare. -/
def Schema.AllBare (schema : Json) : Prop :=
  ∀ attributes, Below (.obj attributes) schema → Bare attributes

theorem Schema.AllBare.child {schema j : Json} (h : AllBare schema) (hj : Child j schema) :
    AllBare j :=
  fun attributes hb => h attributes (.child hj hb)

/-! ### Keys that are texts -/

namespace Conversion

open Step Context Keywords Json.Entries

variable {options : Options} {enclosing name : Text} {c c' : Context} {scope : Scope}
  {attributes es : Json.Entries} {schema : Json}

theorem textKeyed_primitive (p : Primitive) : ((Scalar.primitive p).apply false []).TextKeyed := by
  cases p with
  | bytes => exact (textKeyed_nil.put "type" "string").put "contentEncoding" "base64"
  | _ => exact textKeyed_nil.put "type" _

theorem textKeyed_reference (draft : Draft) (name : Text) :
    (Keywords.reference draft name).TextKeyed :=
  textKeyed_nil.put "$ref" (.str (draft.referenceRoot ++ name))

/-! ### Names and leaves -/

/-- What has been made of a node writes a type: the scope fits the context after it, everything is
written that there is to be written for the type, and the keywords write the type itself. -/
structure Writes (options : Options) (c c' : Context) (es : Json.Entries) (t : AvroType)
    (scope : Scope) : Prop where
  fits : scope.Fits c'
  progress : Progress options c c' [t]
  renders : t.Distinguishable → Renders options t es

/-- A type that nothing has to be written for. -/
theorem writes_simple {t : AvroType} (hf : scope.Fits c') (hc : c.Evolves c' [])
    (hseen : c'.seen = c.seen) (ht : ∀ s, s.IsNamed → Within s t → ∃ q ∈ c.seen, s = .reference q)
    (hr : Renders options t es) : Writes options c c' es t scope :=
  ⟨hf, .simple hc hseen ht, fun _ => hr⟩

/-- No record stands in what an enum or a fixed type stands for. -/
theorem ofLeaf?_not_named {kind : Leaf} {meaning : NamedType} {qualified : Text} {s : AvroType}
    (hm : NamedType.ofLeaf? kind attributes = some meaning) (hs : s.IsNamed) :
    ¬Within s (meaning.type qualified) := by
  intro hw
  cases kind with
  | enum =>
    obtain ⟨symbols, -, rfl⟩ := Option.map_eq_some_iff.1 hm
    cases hw
    exact hs
  | fixed =>
    cases hm
    cases hw
    exact hs

/-- What is made of an enum or a fixed type writes what its full name stands for, in whatever scope
fits the context after it. -/
theorem writes_leaf {kind : Leaf} (hc : c.Sound)
    (hs : objectShape attributes = .leaf kind name attributes) (hb : Bare attributes)
    (h : outcome (leaf options kind name attributes enclosing) c = (.ok es, c')) :
    ∃ qualified meaning, Name.ofNamed name attributes enclosing = .ok qualified
      ∧ NamedType.ofLeaf? kind attributes = some meaning
      ∧ c' = (if qualified.isEmpty then c else c.addNamed qualified attributes) ∧ es.TextKeyed
      ∧ ∀ scope : Scope, scope.Fits c' → Writes options c c' es (meaning.type qualified) scope := by
  have hevolves := (evolving_leaf options hs).of_ok hc h
  obtain ⟨qualified, keywords, hq, hk, rfl, hc'⟩ := leaf_ok h
  obtain ⟨meaning, hm, hrenders, hkeys⟩ := renders_leafKeywords hb hk
  have hseen : c'.seen = c.seen := by
    rw [hc']
    split <;> rfl
  refine ⟨qualified, meaning, hq, hm, hc', hkeys, fun scope hfits => ?_⟩
  exact writes_simple hfits hevolves hseen
    (fun s hs hw => absurd hw (ofLeaf?_not_named hm hs)) hrenders

/-- What is made of a name writes the type that it means. -/
theorem writes_typeName (hc : c.Sound) (hfits : scope.Fits c)
    (h : outcome (typeName options name enclosing) c = (.ok es, c')) :
    ∃ t, scope.meaning? name enclosing = some t ∧ Writes options c c' es t scope ∧ es.TextKeyed := by
  have hevolves := (evolving_typeName name).of_ok hc h
  rcases typeName_ok hc h with ⟨p, hp, rfl, rfl⟩ | ⟨q, hp, hr, ⟨hq, hok⟩ | ⟨hq, hstored⟩⟩
  · refine ⟨.primitive p, ?_,
      writes_simple hfits hevolves rfl ?_ (.primitive (essential_primitive p)),
      textKeyed_primitive p⟩
    · rw [Scope.meaning?, hp]
    · intro s hs hw
      cases hw
      exact hs.elim
  · obtain ⟨rfl, rfl⟩ := reference_ok hok
    refine ⟨.reference q, hfits.meaning?_of_resolve hp hr (hfits.entered q hq),
      writes_simple hfits hevolves rfl ?_ (.reference rfl), textKeyed_reference _ _⟩
    intro s hs hw
    cases hw
    exact ⟨q, hq, rfl⟩
  · obtain ⟨kind, n, attributes, hmem, hs, hok⟩ := hstored
    have hfound := Table.get?_of_mem (Table.sharp_of_lawful q) hc.named_nodup hmem
    obtain ⟨kind', n', meaning, hs', hm, hmeaning⟩ := hfits.leaf q attributes hq hfound
    rw [hs] at hs'
    cases hs'
    -- the stored definition has the full name again that it is stored under
    have hqualified : Name.ofNamed n attributes (Name.namespaceOf q) = .ok q :=
      ofNamed_of_full (objectShape_leaf hs).2.1 (hc.named_defines q attributes hmem).requalified
    obtain ⟨qualified, meaning', hq', hm', rfl, hkeys, hwrites⟩ :=
      writes_leaf hc hs (hfits.bare q attributes hmem) hok
    rw [hqualified] at hq'
    cases hq'
    rw [hm] at hm'
    cases hm'
    refine ⟨meaning.type q, hfits.meaning?_of_resolve hp hr hmeaning, hwrites scope ?_, hkeys⟩
    split
    · exact hfits
    · exact hfits.again hfound

/-! ### Unions -/

/-- Wherever a node comes to be converted, what is made of it writes the type that it means. -/
def IsWritten (options : Options) (schema : Json) : Prop :=
  ∀ enclosing c c' es scope, c.Sound → scope.Fits c →
    outcome (node options schema enclosing) c = (.ok es, c') →
    ∃ t scope', AvroType.read schema enclosing scope = some (t, scope')
      ∧ Writes options c c' es t scope'

/-- What is made of some nodes writes the types that they mean. -/
theorem writes_branches {nodes branches : List Json} (ih : ∀ j ∈ nodes, IsWritten options j)
    (hc : c.Sound) (hfits : scope.Fits c)
    (h : outcome (Conversion.branches options nodes enclosing) c = (.ok branches, c')) :
    ∃ (list : List (AvroType × Json.Entries)) (scope' : Scope),
      readMembers nodes enclosing scope = some (list.map Prod.fst, scope')
        ∧ branches = list.map (fun b => .obj b.2) ∧ scope'.Fits c'
        ∧ Progress options c c' (list.map Prod.fst)
        ∧ ∀ b ∈ list, b.1.Distinguishable → Renders options b.1 b.2 := by
  induction nodes generalizing branches scope c with
  | nil =>
    rw [branches_nil] at h
    cases h
    exact ⟨[], scope, readMembers_nil, rfl, hfits, .nil hc, by simp⟩
  | cons j js ihs =>
    rw [branches_cons] at h
    obtain ⟨es, c₁, hnode, htail⟩ := bind_ok h
    obtain ⟨rest, hrest, rfl⟩ := map_ok htail
    obtain ⟨t, scope₁, hread, hfirst⟩ := ih j List.mem_cons_self _ _ _ _ _ hc hfits hnode
    obtain ⟨list, scope', hreads, rfl, hfits', hprogress, hrenders⟩ :=
      ihs (fun i hi => ih i (List.mem_cons_of_mem _ hi)) hfirst.progress.evolves.sound
        hfirst.fits hrest
    refine ⟨(t, es) :: list, scope', readMembers_cons hread hreads, rfl, hfits',
      hfirst.progress.append hprogress, ?_⟩
    intro b hmem
    rcases List.mem_cons.1 hmem with rfl | hmem
    · exact hfirst.renders
    · exact hrenders b hmem

/-- The type of a union adds no record and no reference to those of its members. -/
theorem within_union {members : List AvroType} (s : AvroType) (hs : s.IsNamed)
    (h : Within s (.union members)) : ∃ u ∈ members, Within s u := by
  cases h with
  | self => exact hs.elim
  | member hm hw => exact ⟨_, hm, hw⟩

/-- Without a logical type, a union of null and a primitive type is a list of two types. -/
theorem nullableScalar_of_bare {member : Json} (p : Primitive)
    (hb : ∀ attributes, member = .obj attributes → Bare attributes) :
    nullableScalar options member p = pairCore p := by
  unfold nullableScalar
  cases member with
  | obj attributes =>
    dsimp only
    rw [(hb attributes rfl).1]
    rfl
  | _ => rfl

/-- What is written for one type is written for a union of it and null. -/
theorem progress_nullable {t : AvroType} {ts : List AvroType} (ht : t ∈ ts)
    (hall : ∀ s ∈ ts, s = t ∨ s = .primitive .null) (h : Progress options c c' [t]) :
    Progress options c c' [.union ts] := by
  refine h.around (fun s hs hw => ?_) fun u hu => ?_
  · obtain ⟨u, hu, hw⟩ := within_union s hs hw
    rcases hall u hu with rfl | rfl
    · exact ⟨u, List.mem_cons_self, hw⟩
    · cases hw
      exact hs.elim
  · rw [List.mem_singleton.1 hu]
    exact .member ht (.self t)

/-- What is made of a union of null and one other type writes the union. -/
theorem writes_nullable {members : List Json} {member : Json}
    (hflatten : options.flattenNullableUnions = false) (hu : unionForm members = .nullable member)
    (hb : ∀ attributes, member = .obj attributes → Bare attributes)
    (ih : IsWritten options member) (hc : c.Sound) (hfits : scope.Fits c)
    (h : outcome (union options members enclosing) c = (.ok es, c')) :
    ∃ ts scope', readMembers members enclosing scope = some (ts, scope')
      ∧ Writes options c c' es (.union ts) scope' := by
  have hnonNull := nonNull_of_unionForm hu
  obtain ⟨kind, hk, ⟨p, hp, rfl, rfl⟩ | ⟨-, branch, hnode, rfl⟩⟩ := nullable_ok hu hflatten h
  · obtain ⟨t, hkind, ht⟩ := kind_of_resolveKind hc hk hp
    have hread : AvroType.read member enclosing scope = some (.primitive p, scope) :=
      read_of_primitive_kind hkind ht
    obtain ⟨ts, hreads, hmem, hall⟩ := readMembers_of_nullable hnonNull hread
    refine ⟨ts, scope, hreads, hfits, progress_nullable hmem hall ?_, fun _ => ?_⟩
    · refine .simple (.refl hc) rfl fun s hs hw => ?_
      cases hw
      exact hs.elim
    · refine .nullablePrimitive hall ?_
      have hes : nullableScalar options.setup.options member p = pairCore p :=
        nullableScalar_of_bare p hb
      rw [hes]
      rfl
  · obtain ⟨t, scope', hread, hwritten⟩ := ih _ _ _ _ _ hc hfits hnode
    obtain ⟨ts, hreads, hmem, hall⟩ := readMembers_of_nullable hnonNull hread
    refine ⟨ts, scope', hreads, hwritten.fits, progress_nullable hmem hall hwritten.progress,
      fun hd => ?_⟩
    refine .nullable hall hmem ?_ (hwritten.renders (hd.of_within (.member hmem (.self t)))) rfl
    intro hnull
    exact kind_ne_null_of_nonNull hnonNull member List.mem_cons_self
      (kind_of_read_null hread hnull)

/-- What is made of a union writes it. -/
theorem writes_union {members : List Json} (hflatten : options.flattenNullableUnions = false)
    (hb : ∀ j ∈ members, ∀ attributes, j = .obj attributes → Bare attributes)
    (ih : ∀ j ∈ members, IsWritten options j) (hc : c.Sound) (hfits : scope.Fits c)
    (h : outcome (union options members enclosing) c = (.ok es, c')) :
    ∃ ts scope', readMembers members enclosing scope = some (ts, scope')
      ∧ Writes options c c' es (.union ts) scope' := by
  cases hu : unionForm members with
  | fault fault =>
    rw [union_of_fault hu] at h
    cases h
  | choice =>
    rw [union_of_choice hu] at h
    obtain ⟨branches, hbranches, rfl⟩ := map_ok h
    obtain ⟨list, scope', hreads, rfl, hfits', hprogress, hrenders⟩ :=
      writes_branches ih hc hfits hbranches
    have haround : Progress options c c' [.union (list.map Prod.fst)] :=
      hprogress.around within_union fun u hu => .member hu (.self u)
    refine ⟨_, scope', hreads, hfits', haround, fun hd => .choice (fun b hmem => ?_) rfl⟩
    exact hrenders b hmem (hd.of_within (.member (List.mem_map.2 ⟨b, hmem, rfl⟩) (.self b.1)))
  | nullable member =>
    have hmem := mem_of_unionForm hu
    exact writes_nullable hflatten hu (hb member hmem) (ih member hmem) hc hfits h

/-! ### Records -/

theorem ofKey_of_toKey? {j : Json} {key : Json.Key} (h : j.toKey? = some key) :
    Json.ofKey key = j := by
  cases j <;> cases h <;> rfl

/-- What has been made of some fields writes them: their properties come after those before them if
all keys are different texts, and no field that admits null becomes a required one. -/
structure WritesFields (options : Options) (c c' : Context) (before made : Json.Entries × List Json)
    (list : List Property) (scope : Scope) : Prop where
  fits : scope.Fits c'
  progress : Progress options c c' (list.map Property.type)
  renders : ∀ p ∈ list, p.type.Distinguishable → Renders options p.type p.keywords
  properties : (∀ p ∈ list, ∃ t, p.key = .text t) →
    (before.1.keys ++ list.map Property.key).Nodup → made.1 = before.1 ++ list.map Property.entry
  required : ∀ n ∈ made.2, n ∈ before.2 ∨ ∃ p ∈ list, n = Json.ofKey p.key ∧ ¬p.type.AdmitsNull

/-- What is made of one more field before others writes it too. -/
theorem WritesFields.cons {c₁ : Context} {before made : Json.Entries × List Json}
    {list : List Property} {scope₁ scope' : Scope} {field property : Json.Entries}
    {type fieldName : Json} {key : Json.Key} {t : AvroType} {nullable : Bool}
    (hkey : fieldName.toKey? = some key)
    (hread : AvroType.read type enclosing scope = some (t, scope₁))
    (hnull : isNullable type = .ok nullable)
    (hfirst : Writes options c c₁ property t scope₁)
    (h : WritesFields options c₁ c' (before.1.set key (.obj (decorate field property)),
      if nullable then before.2 else before.2 ++ [fieldName]) made list scope') :
    WritesFields options c c' before made (⟨key, t, decorate field property⟩ :: list) scope' where
  fits := h.fits
  progress := hfirst.progress.append h.progress
  renders p hmem := by
    rcases List.mem_cons.1 hmem with rfl | hmem
    · exact fun hd => (hfirst.renders hd).of_essential (essential_decorate _ _).symm
    · exact h.renders p hmem
  properties htexts hnodup := by
    obtain ⟨text, htext⟩ := htexts _ List.mem_cons_self
    have hkeys : (before.1.keys ++ key :: list.map Property.key).Nodup := hnodup
    have hnew : key ∉ before.1.keys := by
      intro hmem
      exact (List.nodup_append.1 hkeys).2.2 key hmem key List.mem_cons_self rfl
    have hsharp : Table.Sharp key := by
      have hk : key = .text text := htext
      exact hk ▸ Json.Key.sharp_text text
    have hset : before.1.set key (.obj (decorate field property))
        = before.1 ++ [(key, .obj (decorate field property))] :=
      Table.set_of_not_mem hsharp hnew _
    have hlater := h.properties fun p hmem => htexts p (List.mem_cons_of_mem _ hmem)
    dsimp only at hlater
    rw [hset, Table.keys_append, List.append_assoc, List.append_assoc] at hlater
    exact hlater hkeys
  required n hn := by
    rcases h.required n hn with hn | ⟨p, hmem, hn⟩
    · dsimp only at hn
      split at hn
      · exact .inl hn
      · rename_i hnullable
        rcases List.mem_append.1 hn with hn | hn
        · exact .inl hn
        · -- the field is required, so that the question whether it admits null was answered no
          have hfalse : nullable = false := by simpa using hnullable
          refine .inr ⟨_, List.mem_cons_self, ?_, not_admitsNull hread (hfalse ▸ hnull)⟩
          rw [List.mem_singleton.1 hn]
          exact (ofKey_of_toKey? hkey).symm
    · exact .inr ⟨p, List.mem_cons_of_mem _ hmem, hn⟩

theorem writes_fields {record : Text} {nodes : List Json} {before made : Json.Entries × List Json}
    (ih : ∀ field ∈ nodes, ∀ attributes name type,
      fieldParts record field = .ok (attributes, name, type) → IsWritten options type)
    (hc : c.Sound) (hfits : scope.Fits c)
    (h : outcome (fields options record nodes before.1 before.2) c = (.ok made, c')) :
    ∃ (list : List Property) (scope' : Scope),
      readFields record nodes scope = some (list.map Property.field, scope')
        ∧ WritesFields options c c' before made list scope' := by
  induction nodes generalizing before scope c with
  | nil =>
    rw [fields_nil] at h
    cases h
    refine ⟨[], scope, readFields_nil, hfits, .nil hc, by simp, ?_, fun n hn => .inl hn⟩
    intro _ _
    exact (List.append_nil _).symm
  | cons field more ihs =>
    obtain ⟨attributes, fieldName, type, property, nullable, added, c₁, hp, hnode, hnull, hadd,
      hrest⟩ := fields_cons_ok h
    obtain ⟨t, scope₁, hread, hfirst⟩ :=
      ih field List.mem_cons_self _ _ _ hp _ _ _ _ _ hc hfits hnode
    obtain ⟨list, scope', hreads, hmore⟩ :=
      ihs (fun f hf => ih f (List.mem_cons_of_mem _ hf)) hfirst.progress.evolves.sound
        hfirst.fits hrest
    obtain ⟨key, hkey, rfl⟩ := addField_ok hadd
    exact ⟨⟨key, t, decorate attributes property⟩ :: list, scope',
      readFields_cons hp hread hkey hreads, .cons hkey hread hnull hfirst hmore⟩

/-- What is made of a record writes it, or the reference to one that has been entered before. -/
theorem writes_record (hs : shape schema = .record name attributes) (hb : Bare attributes)
    (ih : ∀ j, Child j schema → IsWritten options j) : IsWritten options schema := by
  intro enclosing c c' es scope hc hfits h
  obtain ⟨q, hq, ⟨hseen, hok⟩ | ⟨hnew, list, made, c₁, hl, hf, rfl, rfl⟩⟩ := record_ok hs h
  · obtain ⟨rfl, rfl⟩ := reference_ok hok
    refine ⟨.reference q, scope, ?_, writes_simple hfits (.refl hc) rfl ?_ (.reference rfl)⟩
    · have hrecords : scope.records.contains q = true :=
        List.contains_iff_mem.2 (hfits.records ▸ hseen)
      rw [read_of_record hs, hq]
      exact if_pos hrecords
    · intro s hs hw
      cases hw
      exact ⟨q, hseen, rfl⟩
  · have hchild : ∀ field ∈ list.1, ∀ attributes name type,
        fieldParts q field = .ok (attributes, name, type) → IsWritten options type := by
      intro field hmem _ _ type hp
      exact ih type (child_of_field hs (fieldList_ok hl) hmem hp)
    have hentered : (c.enter q attributes).Sound := hc.enter (defines_of_record hs hq) hnew
    have hfields : outcome (fields options q list.1 (([], []) : Json.Entries × List Json).1
        (([], []) : Json.Entries × List Json).2) (c.enter q attributes) = (.ok made, c₁) := hf
    obtain ⟨properties, scope', hreads, hwritten⟩ :=
      writes_fields hchild hentered (hfits.enter hb) hfields
    have hread : AvroType.read schema enclosing scope
        = some (.record q (properties.map Property.field), scope') := by
      have hrecords : ¬scope.records.contains q = true :=
        mt List.contains_iff_mem.1 (hfits.records ▸ hnew)
      rw [read_of_record hs, hq]
      show (if scope.records.contains q then _ else _) = _
      rw [if_neg hrecords, hl]
      show (readFields q list.1 (scope.enter q)).map _ = _
      rw [hreads]
      rfl
    have hrenders : (AvroType.record q (properties.map Property.field)).Distinguishable →
        Renders options (.record q (properties.map Property.field))
          (recordKeywords options q attributes made.1 made.2) := by
      intro hd
      obtain ⟨htexts, hnodup⟩ := hd _ (.self _)
      have hmade : made.1 = properties.map Property.entry := by
        refine hwritten.properties (fun p hp => ?_) ?_
        · exact htexts p.field (List.mem_map.2 ⟨p, hp, rfl⟩)
        · rw [List.map_map] at hnodup
          exact hnodup
      rw [hmade]
      refine renders_recordKeywords hb (fun p hp => ?_) fun n hn => ?_
      · have hfield : p.field ∈ properties.map Property.field := List.mem_map.2 ⟨p, hp, rfl⟩
        exact hwritten.renders p hp (hd.of_within (.field hfield (.self p.type)))
      · exact (hwritten.required n hn).resolve_left (by simp)
    have hprogress : Progress options (c.enter q attributes) c₁
        ((properties.map Property.field).map Prod.snd) := by
      rw [List.map_map]
      exact hwritten.progress
    exact ⟨_, scope', hread, hwritten.fits.leave _, .record hc hnew hprogress hrenders, hrenders⟩

/-! ### Nodes -/

/-- What is made of a node around another one writes a type that adds no record and no reference. -/
theorem Writes.around {t u : AvroType} {inner : Json.Entries} (h : Writes options c c' inner u scope)
    (hdown : ∀ s, s.IsNamed → Within s t → Within s u) (hup : Within u t)
    (hr : Renders options u inner → Renders options t es) : Writes options c c' es t scope where
  fits := h.fits
  progress := by
    refine h.progress.around (fun s hs hw => ⟨u, List.mem_cons_self, hdown s hs hw⟩) fun v hv => ?_
    rw [List.mem_singleton.1 hv]
    exact hup
  renders hd := hr (h.renders (hd.of_within hup))

theorem writes_array {items : Json} (hs : shape schema = .array items attributes)
    (hb : Bare attributes) (ih : IsWritten options items) : IsWritten options schema := by
  intro enclosing c c' es scope hc hfits h
  rw [node_of_array hs] at h
  obtain ⟨inner, hi, rfl⟩ := map_ok h
  obtain ⟨t, scope', hread, hw⟩ := ih _ _ _ _ _ hc hfits hi
  rw [read_of_array hs, hread]
  refine ⟨_, _, rfl, hw.around ?_ (.items (.self t)) (renders_arrayKeywords hb)⟩
  intro s hs hwithin
  cases hwithin with
  | self => exact hs.elim
  | items hwithin => exact hwithin

theorem writes_map {values : Json} (hs : shape schema = .map values attributes)
    (hb : Bare attributes) (ih : IsWritten options values) : IsWritten options schema := by
  intro enclosing c c' es scope hc hfits h
  rw [node_of_map hs] at h
  obtain ⟨inner, hi, rfl⟩ := map_ok h
  obtain ⟨t, scope', hread, hw⟩ := ih _ _ _ _ _ hc hfits hi
  rw [read_of_map hs, hread]
  refine ⟨_, _, rfl, hw.around ?_ (.values (.self t)) (renders_mapKeywords hb)⟩
  intro s hs hwithin
  cases hwithin with
  | self => exact hs.elim
  | values hwithin => exact hwithin

/-- **Every node that is converted is written**: it means a type, and the keywords that are made of
it write this type, where unions are not flattened and no object below it has a logical type or a
custom property. -/
theorem writes_node (hflatten : options.flattenNullableUnions = false) (schema : Json)
    (hbare : AllBare schema) : IsWritten options schema := by
  induction schema using Schema.induction with
  | step schema ih =>
    have hwritten : ∀ j, Child j schema → IsWritten options j :=
      fun j hj => ih j hj (hbare.child hj)
    have hobject : ∀ attributes, schema = .obj attributes → Bare attributes :=
      fun attributes he => hbare attributes (he ▸ .self _)
    intro enclosing c c' es scope hc hfits h
    cases hs : shape schema with
    | malformed fault =>
      rw [node_of_malformed hs] at h
      cases h
    | union members =>
      rw [node_of_union hs] at h
      have hmember : ∀ j ∈ members, ∀ attributes, j = .obj attributes → Bare attributes := by
        intro j hj attributes he
        exact hbare.child (.member hs hj) attributes (he ▸ .self _)
      obtain ⟨ts, scope', hreads, hw⟩ :=
        writes_union hflatten hmember (fun j hj => hwritten j (.member hs hj)) hc hfits h
      rw [read_of_union hs, hreads]
      exact ⟨_, _, rfl, hw⟩
    | name name =>
      rw [node_of_name hs] at h
      obtain ⟨t, hm, hw, -⟩ := writes_typeName hc hfits h
      rw [read_of_name hs, hm]
      exact ⟨_, _, rfl, hw⟩
    | wrapper inner =>
      rw [node_of_wrapper hs] at h
      rw [read_of_wrapper hs]
      exact hwritten inner (.inner hs) _ _ _ _ _ hc hfits h
    | primitive p attributes =>
      obtain ⟨_, rfl, rfl⟩ := fits_of_shape hs (by simp) (by simp) (by simp)
      rw [node_of_primitive hs] at h
      cases h
      refine ⟨_, _, read_of_primitive hs, writes_simple hfits (.refl hc) rfl ?_
        (renders_primitive (hobject _ rfl) p)⟩
      intro s hs hw
      cases hw
      exact hs.elim
    | leaf kind name attributes =>
      obtain ⟨_, rfl, rfl⟩ := fits_of_shape hs (by simp) (by simp) (by simp)
      rw [node_of_leaf hs] at h
      obtain ⟨qualified, meaning, hq, hm, rfl, -, hwrites⟩ := writes_leaf hc hs (hobject _ rfl) h
      rw [read_of_leaf hs, hq, hm]
      exact ⟨_, _, rfl, hwrites _ (hfits.afterLeaf (hobject _ rfl) hs hm)⟩
    | array items attributes =>
      obtain ⟨_, rfl, rfl, -⟩ := fits_of_shape hs (by simp) (by simp) (by simp)
      exact writes_array hs (hobject _ rfl) (hwritten items (.items hs)) _ _ _ _ _ hc hfits h
    | map values attributes =>
      obtain ⟨_, rfl, rfl, -⟩ := fits_of_shape hs (by simp) (by simp) (by simp)
      exact writes_map hs (hobject _ rfl) (hwritten values (.values hs)) _ _ _ _ _ hc hfits h
    | reference name attributes =>
      obtain ⟨_, rfl, rfl⟩ := fits_of_shape hs (by simp) (by simp) (by simp)
      rw [node_of_reference hs] at h
      obtain ⟨target, ht, rfl⟩ := map_ok h
      obtain ⟨t, hm, hw, hkeys⟩ := writes_typeName hc hfits ht
      rw [read_of_reference hs, hm]
      refine ⟨_, _, rfl, hw.around (fun _ _ hwithin => hwithin) (.self t) fun hr => ?_⟩
      exact hr.of_essential (essential_referenceKeywords (hobject _ rfl) hkeys).symm
    | record name attributes =>
      exact writes_record hs (hobject _ (eq_obj_of_record hs)) hwritten _ _ _ _ _ hc hfits h

end Conversion

end AvroJsonSchema
