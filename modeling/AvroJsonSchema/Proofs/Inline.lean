import AvroJsonSchema.Proofs.Occurrences
import AvroJsonSchema.Proofs.Toggles

/-!
# Records where they are first met

A record is written twice: where it is first met, and among the definitions.  Both come from the same
keywords: they are defined when the record is left, and what is done to them afterwards, by the field
around them, reaches the place alone.  An entry is not touched again, and the place stays as it is
unless it stands in the property of a field that a later one of the same name replaces.

* **`Conversion.FirstMet`**: a record is met for the first time.
* **`Conversion.Visit.occurs`**: a node that is visited is written somewhere, or is of a primitive
  kind.
* **`Document.inline_agrees`**: what stands where a record is first met is its entry.
* **`Document.entry_at_first_place`**: so it is at every place if no record has two fields of one name.
* **`Document.inline_replaced`**: a later field of the same name takes the place of a record.
-/

namespace AvroJsonSchema

open Json Schema Step

namespace Conversion

variable {options : Options} {whole schema : Json} {root es entry : Entries} {final c : Context}
  {enclosing q : Text} {place : Place}

/-- A record of a full name is met that has not been entered before. -/
def FirstMet (record : Json) (enclosing : Text) (c : Context) (q : Text) : Prop :=
  ∃ name attributes, shape record = .record name attributes
    ∧ Name.ofNamed name attributes enclosing = .ok q ∧ q ∉ c.seen

/-- What is made of a record where it is first met is its entry in the end. -/
theorem Written.entry_of_first (h : Written options root final schema enclosing c place es)
    (hfirst : FirstMet schema enclosing c q) (hfinal : final.Sound) :
    final.definitions.get? q = some es := by
  obtain ⟨name, attributes, hs, hq, hseen⟩ := hfirst
  obtain ⟨c', hok, hkept⟩ := h.made
  obtain ⟨q', hq', ⟨hseen', -⟩ | ⟨-, list, made, c₁, -, -, -, rfl⟩⟩ := record_ok hs hok
  · cases hq.symm.trans hq'
    exact absurd hseen' hseen
  · cases hq.symm.trans hq'
    have hsharp := Table.sharp_of_lawful q
    have hdefined : (c₁.define q es).definitions.get? q = some es :=
      Table.get?_set_self hsharp es c₁.definitions
    exact Table.get?_of_mem hsharp hfinal.definitions_nodup
      (hkept.subset (Table.mem_of_get?_eq_some hsharp hdefined))

/-- A node of a primitive kind is a name, an object of a primitive type, or a wrapper. -/
theorem shape_of_primitive_kind {t : Text} {p : Primitive} (h : kind schema = .ok (.str t))
    (hp : Primitive.ofText? t = some p) :
    (∃ name, shape schema = .name name) ∨ (∃ p es, shape schema = .primitive p es)
      ∨ ∃ inner, shape schema = .wrapper inner := by
  rcases kind_cases h with ⟨_, -, hk⟩ | ⟨rfl, -⟩ | ⟨attributes, rfl, ht, -⟩ | ⟨inner, hs, -⟩
  · rw [Json.str.inj hk] at hp
    cases hp
  · exact .inl ⟨t, rfl⟩
  · exact .inr (.inl ⟨p, attributes, shape_of_primitive ht hp⟩)
  · exact .inr (.inr ⟨inner, hs⟩)

/-- A node of a primitive kind has no nodes below it but those that it wraps. -/
theorem wrapper_of_primitive_kind {j : Json} {t : Text} {p : Primitive}
    (h : kind schema = .ok (.str t)) (hp : Primitive.ofText? t = some p) (hj : Child j schema) :
    shape schema = .wrapper j := by
  rcases shape_of_primitive_kind h hp with ⟨_, hs⟩ | ⟨_, _, hs⟩ | ⟨_, hs⟩ <;> cases hj <;> simp_all

/-- A node is written somewhere, or it is of a primitive kind. -/
def OccursUnlessPrimitive (options : Options) (whole schema : Json) (enclosing : Text)
    (c : Context) : Prop :=
  (∃ place, Occurs options whole schema enclosing c place)
    ∨ ∃ t p, kind schema = .ok (.str t) ∧ Primitive.ofText? t = some p

/-- **A node that is visited is written somewhere**, unless it is of a primitive kind, so that a union
around it has decided about it without a conversion. -/
theorem Visit.occurs (h : Visit options whole schema enclosing c)
    (hwhole : ∀ attributes, Below (.obj attributes) whole → Unambiguous attributes)
    (hrun : outcome (node options whole []) Context.empty = (.ok root, final)) :
    OccursUnlessPrimitive options whole schema enclosing c := by
  induction h with
  | whole => exact .inl ⟨.root, .whole⟩
  | inner _ hs ih =>
    refine ih.imp (fun ⟨place, ho⟩ => ⟨place, .inner ho hs⟩) fun ⟨t, p, hk, hp⟩ => ?_
    exact ⟨t, p, (kind_of_wrapper hs).symm.trans hk, hp⟩
  | items _ hs ih =>
    refine ih.imp (fun ⟨_, ho⟩ => ⟨_, .items ho hs⟩) fun ⟨t, p, hk, hp⟩ => ?_
    cases hs.symm.trans (wrapper_of_primitive_kind hk hp (.items hs))
  | values _ hs ih =>
    refine ih.imp (fun ⟨_, ho⟩ => ⟨_, .values ho hs⟩) fun ⟨t, p, hk, hp⟩ => ?_
    cases hs.symm.trans (wrapper_of_primitive_kind hk hp (.values hs))
  | branch _ hs hu hb ih =>
    refine ih.imp (fun ⟨_, ho⟩ => ⟨_, .branch ho hs hu hb⟩) fun ⟨t, p, hk, hp⟩ => ?_
    cases hs.symm.trans (wrapper_of_primitive_kind hk hp (.member hs (List.mem_append_right _
      List.mem_cons_self)))
  | @nullable _ j enclosing c _ _ hs hu ih =>
    rcases ih with ⟨place, ho⟩ | ⟨t, p, hk, hp⟩
    · cases hflatten : options.flattenNullableUnions with
      | true => exact .inl ⟨place, .flattened ho hs hu hflatten⟩
      | false =>
        obtain ⟨es, hw⟩ := ho.written hwhole hrun
        obtain ⟨c', hok, -⟩ := hw.made
        rw [node_of_union hs] at hok
        obtain ⟨k, hk, ⟨p, hp, -⟩ | ⟨hp, -⟩⟩ := nullable_ok hu hflatten hok
        · obtain ⟨t, hkind, ht⟩ := kind_of_resolveKind hw.sound hk hp
          exact .inr ⟨t, p, hkind, ht⟩
        · exact .inl ⟨_, .beside ho hs hu hflatten hk hp⟩
    · cases hs.symm.trans (wrapper_of_primitive_kind hk hp (.member hs (mem_of_unionForm hu)))
  | field _ hs hq hseen hl hbefore hparts ih =>
    rcases ih with ⟨place, ho⟩ | ⟨t, p, hk, hp⟩
    · obtain ⟨es, hw⟩ := ho.written hwhole hrun
      have ha := hwhole _ (eq_obj_of_record hs ▸ ho.stands_below)
      obtain ⟨key, -, hkey, -⟩ := field_written hw ha hs hq hseen hl hbefore hparts
      exact .inl ⟨_, .field ho hs hq hseen hl hbefore hparts hkey⟩
    · cases hs.symm.trans (wrapper_of_primitive_kind hk hp (child_of_field hs hl
        (List.mem_append_right _ List.mem_cons_self) hparts))

/-- No record of a schema has two fields of one name. -/
def FieldsApart (whole : Json) : Prop :=
  ∀ (record : Json) (name : Text) (attributes : Entries), Below record whole →
    shape record = .record name attributes →
    ∀ (before after : List Json) (field : Entries) (fieldName : Json) (key : Key),
      attributes.attr? "fields" = some (.arr (before ++ .obj field :: after)) →
      field.attr? "name" = some fieldName → fieldName.toKey? = some key → hasNamed key after = false

/-- Then no property is replaced, and every place is kept. -/
theorem Occurs.kept_of_fieldsApart (h : Occurs options whole schema enclosing c place)
    (hapart : FieldsApart whole) : place.kept = true := by
  induction h with
  | whole => rfl
  | field ho hs _ _ hl _ hp hkey ih =>
    obtain ⟨rfl, hn, -⟩ := fieldParts_ok hp
    have hother := hapart _ _ _ ho.stands_below hs _ _ _ _ _ hl hn hkey
    exact Bool.and_eq_true_iff.2 ⟨ih, by rw [hother]; rfl⟩
  | _ => assumption

/-- A record that is met for the first time and has an entry in the end has been met somewhere. -/
theorem Finished.occurs (h : Finished options whole q entry)
    (hwhole : ∀ attributes, Below (.obj attributes) whole → Unambiguous attributes)
    (hrun : outcome (node options whole []) Context.empty = (.ok root, final)) :
    ∃ record enclosing c place, Occurs options whole record enclosing c place
      ∧ FirstMet record enclosing c q := by
  obtain ⟨record, name, enclosing, attributes, c, -, hv, hs, hq, hseen, -⟩ := h
  have hfirst : FirstMet record enclosing c q := ⟨name, attributes, hs, hq, hseen⟩
  rcases hv.occurs hwhole hrun with ⟨place, ho⟩ | ⟨t, p, hk, hp⟩
  · exact ⟨record, enclosing, c, place, ho, hfirst⟩
  · rcases shape_of_primitive_kind hk hp with ⟨_, hs'⟩ | ⟨_, _, hs'⟩ | ⟨_, hs'⟩ <;>
      cases hs.symm.trans hs'

section Run

variable (hwhole : ∀ attributes, Below (.obj attributes) whole → Unambiguous attributes)
  (hrun : outcome (node options whole []) Context.empty = (.ok root, final))
  (hentry : final.definitions.get? q = some entry)
include hwhole hrun hentry

/-- A record with an entry is met for the first time somewhere. -/
theorem exists_firstMet : ∃ record enclosing c place, Occurs options whole record enclosing c place
    ∧ FirstMet record enclosing c q := by
  obtain ⟨-, hclosed⟩ := closed_node hwhole whole _ _ _ _ .whole .empty hrun fun q hq => hq
  have hmem := Table.mem_of_get?_eq_some (Table.sharp_of_lawful q) hentry
  exact (hclosed.finished q entry hmem).occurs hwhole hrun

/-- What is made of it there is the entry. -/
theorem Occurs.written_first {record : Json} (h : Occurs options whole record enclosing c place)
    (hfirst : FirstMet record enclosing c q) :
    Written options root final record enclosing c place entry := by
  obtain ⟨es, hw⟩ := h.written hwhole hrun
  have hfinal := ((evolving_node whole []).of_ok .empty hrun).sound
  cases (hw.entry_of_first hfirst hfinal).symm.trans hentry
  exact hw

end Run

end Conversion

namespace Document

open Conversion Context

/-- Under a name of the document stands what the keywords of the whole schema have, or else what the
header has. -/
theorem attr?_document {options : Options} {schema : Json} {root : Entries} {c : Context}
    (hrun : run options schema = (.ok root, c)) (name : Text) :
    Entries.attr? name ((header options.draft c).merge root) =
      (root.attr? name).or ((header options.draft c).attr? name) := by
  have hwritten := (run_eq_written options schema).symm.trans hrun
  cases ho : (Outline.ofSchema options.flattenNullableUnions schema).1 with
  | error fault =>
    rw [ho] at hwritten
    cases hwritten
  | ok outline =>
    rw [ho] at hwritten
    cases hwritten
    exact (Outline.once_write name options outline).get?_merge (Key.sharp_text name) _

theorem header_keys (draft : Draft) (c : Context) :
    (header draft c).KeysAmong ["$schema", "definitions", "$defs"] := by
  intro e he
  simp only [header, List.mem_cons] at he
  rcases he with rfl | he
  · exact ⟨"$schema", by decide, rfl⟩
  · split at he
    · cases he
    · rw [List.mem_singleton.1 he]
      cases draft with
      | draft07 => exact ⟨"definitions", by decide, rfl⟩
      | draft202012 => exact ⟨"$defs", by decide, rfl⟩

/-- The header leads to no part of the whole schema. -/
theorem take?_document {options : Options} {schema : Json} {root : Entries} {c : Context}
    (hrun : run options schema = (.ok root, c)) (turn : Turn) :
    turn.take? ((header options.draft c).merge root) = turn.take? root := by
  have hsame : ∀ name ∉ (["$schema", "definitions", "$defs"] : List Text),
      Entries.attr? name ((header options.draft c).merge root) = root.attr? name := by
    intro name hname
    rw [attr?_document hrun, (header_keys options.draft c).attr?_eq_none hname, Option.or_none]
  cases turn <;> unfold Turn.take? <;> dsimp only <;> rw [hsame _ (by decide)]

/-- **The first occurrence of a record and its entry agree.**  If no object of a schema has a custom
property named like a structural keyword, every record among the definitions stands under its full
name in the document and is met first at some node.  What is made of a node where a record is first
met is the entry of the record; and if the node stands in no property that a later field of the same
name replaces, the keywords at its place in the document are the entry: the same keywords for the whole
schema, for items, values and branches of a choice, and for the type of a field the same with the
description set to the doc of the field and its default as the last keyword, if it has them.  No entry
and nothing that is made of a node has a default, and what stands at its place has the one of the field
that it is the type of. -/
theorem inline_agrees (options : Options) (schema document : Json)
    (hschema : ∀ attributes, Below (.obj attributes) schema → Unambiguous attributes)
    (hdocument : ofSchema options schema = .ok document) :
    ∃ (root : Entries) (c : Context), run options schema = (.ok root, c)
      ∧ document = .obj ((header options.draft c).merge root)
      ∧ (∀ name, Entries.attr? name ((header options.draft c).merge root) =
          (root.attr? name).or ((header options.draft c).attr? name))
      ∧ (∀ turn : Turn, turn.take? ((header options.draft c).merge root) = turn.take? root)
      ∧ (∀ q entry, c.definitions.get? q = some entry →
          (∃ table, Entries.attr? options.draft.definitionsKeyword
                ((header options.draft c).merge root) = some (.obj table)
              ∧ Entries.attr? q table = some (.obj entry))
            ∧ entry.attr? "default" = none
            ∧ (∃ record enclosing c₀ place, Occurs options schema record enclosing c₀ place
                ∧ FirstMet record enclosing c₀ q)
            ∧ ∀ record enclosing c₀ place, Occurs options schema record enclosing c₀ place →
                FirstMet record enclosing c₀ q →
                (outcome (node options record enclosing) c₀).1 = .ok entry
                  ∧ (place.kept = true → root.find? place.way = some (place.role.write entry)))
      ∧ ∀ j enclosing c₀ place, Occurs options schema j enclosing c₀ place →
          ∃ es, (outcome (node options j enclosing) c₀).1 = .ok es
            ∧ es.attr? "default" = none
            ∧ (place.kept = true → root.find? place.way = some (place.role.write es))
            ∧ (place.role.write es).attr? "default" = place.role.default? := by
  obtain ⟨root, c, hrun, rfl⟩ := ofSchema_ok hdocument
  have hnode : outcome (node options schema []) Context.empty = (.ok root, c) := hrun
  refine ⟨root, c, hrun, rfl, attr?_document hrun, take?_document hrun, fun q entry hq => ?_,
    fun j enclosing c₀ place ho => ?_⟩
  · obtain ⟨hkeywords, -⟩ := closed_node hschema schema _ _ _ _ .whole .empty hnode fun q hq => hq
    obtain ⟨record, enclosing, c₀, place, ho, hfirst⟩ := exists_firstMet hschema hnode hq
    have hmet := ho.written_first hschema hnode hq hfirst
    obtain ⟨c', hok, -⟩ := hmet.made
    refine ⟨definition_found hkeywords hq, default_node hmet.sound hok,
      ⟨record, enclosing, c₀, place, ho, hfirst⟩, fun other enclosing c₁ place ho hfirst => ?_⟩
    have hw := ho.written_first hschema hnode hq hfirst
    obtain ⟨c', hok, -⟩ := hw.made
    exact ⟨congrArg Prod.fst hok, hw.found⟩
  · obtain ⟨es, hw⟩ := ho.written hschema hnode
    obtain ⟨c', hok, -⟩ := hw.made
    have hnone := default_node hw.sound hok
    exact ⟨es, congrArg Prod.fst hok, hnone, hw.found, Keywords.attr?_default_write hnone _⟩

/-- **Where no record has two fields of one name, every place shows what is made for it.**  The entry
of a record stands wherever the record is met for the first time, and what is made of any node stands
at its place, with the default of the field that it is the type of and with no other. -/
theorem entry_at_first_place (options : Options) (schema document : Json)
    (hschema : ∀ attributes, Below (.obj attributes) schema → Unambiguous attributes)
    (hapart : FieldsApart schema) (hdocument : ofSchema options schema = .ok document) :
    ∃ (root : Entries) (c : Context), run options schema = (.ok root, c)
      ∧ document = .obj ((header options.draft c).merge root)
      ∧ (∀ q entry, c.definitions.get? q = some entry →
          (∃ record enclosing c₀ place, Occurs options schema record enclosing c₀ place
            ∧ FirstMet record enclosing c₀ q)
          ∧ ∀ record enclosing c₀ place, Occurs options schema record enclosing c₀ place →
              FirstMet record enclosing c₀ q →
              root.find? place.way = some (place.role.write entry))
      ∧ ∀ j enclosing c₀ place, Occurs options schema j enclosing c₀ place →
          ∃ es, (outcome (node options j enclosing) c₀).1 = .ok es
            ∧ root.find? place.way = some (place.role.write es)
            ∧ (place.role.write es).attr? "default" = place.role.default? := by
  obtain ⟨root, c, hrun, rfl⟩ := ofSchema_ok hdocument
  have hnode : outcome (node options schema []) Context.empty = (.ok root, c) := hrun
  refine ⟨root, c, hrun, rfl, fun q entry hq => ⟨exists_firstMet hschema hnode hq, ?_⟩, ?_⟩
  · intro record enclosing c₀ place ho hfirst
    exact (ho.written_first hschema hnode hq hfirst).found (ho.kept_of_fieldsApart hapart)
  · intro j enclosing c₀ place ho
    obtain ⟨es, hw⟩ := ho.written hschema hnode
    obtain ⟨c', hok, -⟩ := hw.made
    exact ⟨es, congrArg Prod.fst hok, hw.found (ho.kept_of_fieldsApart hapart),
      Keywords.attr?_default_write (default_node hw.sound hok) _⟩

/-- An address. -/
def address : Entries :=
  [(.text "type", "record"), (.text "name", "Address"), (.text "fields", .arr [])]

/-- The field of a shipment that says where it goes. -/
def destination : Entries :=
  [(.text "name", "to"), (.text "type", .obj address), (.text "doc", "where it goes"),
    (.text "default", .obj [])]

/-- The attributes of a shipment with some fields after its destination. -/
def shipment (more : List Json) : Entries :=
  [(.text "type", "record"), (.text "name", "Shipment"),
    (.text "fields", .arr (.obj destination :: more))]

/-- A shipment meets an address first as the type of its first field. -/
theorem occurs_address (options : Options) (more : List Json) :
    let c := Context.empty.enter "Shipment" (shipment more)
    Occurs options (.obj (shipment more)) (.obj address) [] c
        (Place.root.property destination (.text "to") more)
      ∧ FirstMet (.obj address) [] c "Address" := by
  refine ⟨?_, "Address", address, rfl, rfl, ?_⟩
  · have hfields : outcome (fields options "Shipment" [] [] [])
        (Context.empty.enter "Shipment" (shipment more)) =
        (.ok ([], []), Context.empty.enter "Shipment" (shipment more)) := by
      rw [fields_nil]
      rfl
    have hunseen : Text.ofString "Shipment" ∉ Context.empty.seen := by simp [Context.empty]
    exact .field .whole rfl rfl hunseen rfl hfields rfl rfl
  · show Text.ofString "Address" ∉ [Text.ofString "Shipment"]
    decide

/-- No object that stands in a shipment has a custom property, if its other fields are of types
that are names. -/
theorem unambiguous_shipment {more : List Json}
    (hmore : ∀ field : Entries, .obj field ∈ more → ∃ t, field.attr? "type" = some (.str t))
    {attributes : Entries} (h : Below (.obj attributes) (.obj (shipment more))) :
    Unambiguous attributes := by
  intro e he
  have hshipment : shape (.obj (shipment more)) = .record "Shipment" (shipment more) := rfl
  rcases below_record hshipment h with hself | ⟨list, field, type, hl, hf, ht, hb⟩
  · cases hself
    cases he
  · cases hl
    rcases List.mem_cons.1 hf with hf | hf
    · cases hf
      cases ht
      have haddress : shape (.obj address) = .record "Address" address := rfl
      rcases below_record haddress hb with hself | ⟨_, _, _, hl, hf, -⟩
      · cases hself
        cases he
      · cases hl
        cases hf
    · obtain ⟨t, htext⟩ := hmore field hf
      cases ht.symm.trans htext
      cases below_str hb

theorem inline_agrees_shipment :
    ∃ (root : Entries) (c : Context) (entry : Entries),
      run Options.strict (.obj (shipment [])) = (.ok root, c)
      ∧ c.definitions.get? ("Address" : Text) = some entry
      ∧ root.find? [.property (.text "to")] = some ((Role.property destination).write entry)
      ∧ ((Role.property destination).write entry).attr? "default" = some (.obj []) := by
  have hok : (ofSchema Options.strict (.obj (shipment []))).toBool = true := by decide +kernel
  have hdefined : ((run Options.strict (.obj (shipment []))).2.definitions.has
      (Text.ofString "Address")) = true := by decide +kernel
  cases hd : ofSchema Options.strict (.obj (shipment [])) with
  | error fault =>
    rw [hd] at hok
    cases hok
  | ok document =>
    obtain ⟨root, c, hrun, -, -, -, hentries, hnodes⟩ := inline_agrees Options.strict
      (.obj (shipment [])) document (fun _ h => unambiguous_shipment (by simp) h) hd
    rw [hrun] at hdefined
    obtain ⟨entry, hentry⟩ := Option.isSome_iff_exists.1 hdefined
    obtain ⟨ho, hfirst⟩ := occurs_address Options.strict []
    obtain ⟨-, -, -, hmet⟩ := hentries "Address" entry hentry
    obtain ⟨hmade, hfound⟩ := hmet _ _ _ _ ho hfirst
    obtain ⟨es, hes, -, -, hdefault⟩ := hnodes _ _ _ _ ho
    cases hmade.symm.trans hes
    exact ⟨root, c, entry, hrun, hentry, hfound rfl, hdefault⟩

/-- A later field with the name of the destination. -/
def number : Entries :=
  [(.text "name", "to"), (.text "type", "int")]

/-- **A later field of the same name takes the place of a record.**  An address is met first as the
type of a field, and another field of the same name comes after it, so that the property is no address
in the end. -/
theorem inline_replaced :
    ∃ (root : Entries) (c c₀ : Context) (entry : Entries) (place : Place),
      run Options.strict (.obj (shipment [.obj number])) = (.ok root, c)
      ∧ (∀ attributes, Below (.obj attributes) (.obj (shipment [.obj number])) →
          Unambiguous attributes)
      ∧ c.definitions.get? ("Address" : Text) = some entry
      ∧ Occurs Options.strict (.obj (shipment [.obj number])) (.obj address) [] c₀ place
      ∧ FirstMet (.obj address) [] c₀ "Address"
      ∧ (∃ shown, root.find? place.way = some shown ∧ shown.attr? "title" = none)
      ∧ (place.role.write entry).attr? "title" ≠ none
      ∧ root.find? place.way ≠ some (place.role.write entry) := by
  have hok : (run Options.strict (.obj (shipment [.obj number]))).1.toBool = true := by
    decide +kernel
  have hdefined : ((run Options.strict (.obj (shipment [.obj number]))).2.definitions.get?
      (Text.ofString "Address")).any (fun entry =>
        (((Role.property destination).write entry).attr? "title").isSome) = true := by
    decide +kernel
  have hreplaced : ((run Options.strict (.obj (shipment [.obj number]))).1.toOption.any fun root =>
      (root.find? [.property (.text "to")]).any fun shown => (shown.attr? "title").isNone) = true := by
    decide +kernel
  rcases hrun : run Options.strict (.obj (shipment [.obj number])) with ⟨result, c⟩
  rw [hrun] at hok hdefined hreplaced
  cases result with
  | error fault => cases hok
  | ok root =>
    obtain ⟨entry, hentry, htitle⟩ := (Option.any_eq_true _ _).1 hdefined
    have hreplaced : ((root.find? [.property (.text "to")]).any fun shown =>
        (shown.attr? "title").isNone) = true := hreplaced
    obtain ⟨shown, hshown, hnone⟩ := (Option.any_eq_true _ _).1 hreplaced
    obtain ⟨ho, hfirst⟩ := occurs_address Options.strict [.obj number]
    have htitled := Option.isSome_iff_ne_none.1 htitle
    have huntitled := Option.isNone_iff_eq_none.1 hnone
    refine ⟨root, c, _, entry, _, rfl, fun _ h => unambiguous_shipment ?_ h, hentry, ho, hfirst,
      ⟨shown, hshown, huntitled⟩, htitled, fun hsame => ?_⟩
    · intro field hmem
      cases List.mem_singleton.1 hmem
      exact ⟨"int", rfl⟩
    · cases hshown.symm.trans hsame
      exact htitled huntitled

end Document

end AvroJsonSchema
