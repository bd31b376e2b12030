import AvroJsonSchema.Proofs.Origins
import AvroJsonSchema.Proofs.References

/-!
# The header of a document

The draft's address and the definitions table stand at the top of a document, and the keywords of
the converted schema are put over them.  A conversion generates no keyword of the header's names, so
the only thing that can take their place is a custom property, and only one of the object that the
schema comes down to: with nothing defined yet, no name leads to the keywords of another object.

* **`Document.root_header_keyword`**: what the converted schema has under a name of the header.
* **`Document.header_of_draft`**: when the address and the table are the draft's own.
* **`Document.header_replaced`**: a schema for which neither is, so that a reference dangles.
-/

namespace AvroJsonSchema

namespace Conversion

open Schema Step

/-- In the empty context only a primitive type has a name. -/
theorem typeName_ok_of_empty {setup : Setup} {name enclosing : Text} {es : Json.Entries}
    {c : Context} (h : outcome (typeName setup name enclosing) Context.empty = (.ok es, c)) :
    ∃ p, Primitive.ofText? name = some p ∧ es = (Scalar.primitive p).apply false [] := by
  rcases typeName_ok .empty h with ⟨p, hp, rfl, -⟩ | ⟨qualified, -, hr, -⟩
  · exact ⟨p, hp, rfl⟩
  · obtain ⟨attributes, ha⟩ := Context.resolve_ok hr
    cases ha

end Conversion

namespace Document

open Schema Step Conversion Keywords

/-- Under a name that no keyword is generated for, the keywords of a whole schema have what the
custom properties of its origin hold. -/
def TakesFromOrigin (options : Options) (schema : Json) (name : Text) (keywords : Json.Entries) :
    Prop :=
  keywords.attr? name = custom? name (origin options.flattenNullableUnions schema)
    ∧ Table.Once (Json.Key.text name) keywords

variable {options : Options} {schema : Json} {name : Text} {keywords : Json.Entries}

theorem TakesFromOrigin.of_generated (hn : name ∉ generated) (hk : keywords.KeysAmong generated)
    (ho : custom? name (origin options.flattenNullableUnions schema) = none) :
    TakesFromOrigin options schema name keywords :=
  ⟨(hk.attr?_eq_none hn).trans ho.symm, Table.once_of_not_mem (hk.not_mem_keys hn)⟩

theorem TakesFromOrigin.of_annotated {attributes : Json.Entries} (hn : name ∉ generated)
    (hk : keywords.KeysAmong generated)
    (ho : origin options.flattenNullableUnions schema = .obj attributes) :
    TakesFromOrigin options schema name (annotate attributes keywords) := by
  obtain ⟨hattr, honce⟩ := annotate_of_not_generated attributes hn hk
  refine ⟨?_, honce⟩
  rw [hattr, ho]
  rfl

/-- The keywords of a whole schema take from its origin what stands under a name of the header. -/
theorem root_header_keyword {enclosing : Text} {c : Context} (hn : name ∉ generated)
    (h : outcome (node options schema enclosing) Context.empty = (.ok keywords, c)) :
    TakesFromOrigin options schema name keywords := by
  induction schema using Schema.induction generalizing keywords c with
  | step schema ih =>
    have hself : (∀ inner, shape schema ≠ .wrapper inner) →
        (∀ members, shape schema ≠ .union members) →
        origin options.flattenNullableUnions schema = schema := origin_of_other
    cases hs : shape schema with
    | malformed fault =>
      rw [node_of_malformed hs] at h
      cases h
    | wrapper inner =>
      rw [node_of_wrapper hs] at h
      have hinner := ih inner (.inner hs) h
      rwa [TakesFromOrigin, ← origin_of_wrapper hs] at hinner
    | name text =>
      rw [node_of_name hs] at h
      obtain ⟨p, -, rfl⟩ := typeName_ok_of_empty h
      refine .of_generated hn (generated_apply (by simp [Json.Entries.KeysAmong]) _ _) ?_
      rw [hself (by simp [hs]) (by simp [hs]), eq_str_of_shape hs]
      rfl
    | reference text attributes =>
      obtain ⟨es, rfl, -⟩ := fits_of_shape hs (by simp) (by simp) (by simp)
      rw [node_of_reference hs] at h
      obtain ⟨target, htarget, -⟩ := map_ok h
      obtain ⟨p, hp, -⟩ := typeName_ok_of_empty htarget
      rw [ofText?_of_shape_reference hs] at hp
      cases hp
    | primitive p attributes =>
      obtain ⟨es, rfl, rfl⟩ := fits_of_shape hs (by simp) (by simp) (by simp)
      rw [node_of_primitive hs] at h
      cases h
      exact .of_annotated hn (generated_apply generated_ofLogicalType _ _)
        (hself (by simp [hs]) (by simp [hs]))
    | leaf kind text attributes =>
      obtain ⟨es, rfl, rfl⟩ := fits_of_shape hs (by simp) (by simp) (by simp)
      rw [node_of_leaf hs] at h
      obtain ⟨qualified, made, -, hmade, rfl, -⟩ := leaf_ok h
      exact .of_annotated hn (generated_leafKeywords hmade) (hself (by simp [hs]) (by simp [hs]))
    | array items attributes =>
      obtain ⟨es, rfl, rfl, -⟩ := fits_of_shape hs (by simp) (by simp) (by simp)
      rw [node_of_array hs] at h
      obtain ⟨inner, -, rfl⟩ := map_ok h
      exact .of_annotated hn ((generated_withType _).put (by decide) _)
        (hself (by simp [hs]) (by simp [hs]))
    | map values attributes =>
      obtain ⟨es, rfl, rfl, -⟩ := fits_of_shape hs (by simp) (by simp) (by simp)
      rw [node_of_map hs] at h
      obtain ⟨inner, -, rfl⟩ := map_ok h
      exact .of_annotated hn ((generated_withType _).put (by decide) _)
        (hself (by simp [hs]) (by simp [hs]))
    | record text attributes =>
      have ho := eq_obj_of_record hs
      obtain ⟨qualified, -, ⟨hseen, -⟩ | ⟨-, list, made, c₁, -, -, rfl, -⟩⟩ := record_ok hs h
      · cases hseen
      · exact .of_annotated hn (generated_recordFrame _ _ _)
          ((hself (by simp [hs]) (by simp [hs])).trans ho)
    | union members =>
      have harr := eq_arr_of_shape hs
      rw [node_of_union hs] at h
      cases hu : unionForm members with
      | fault fault =>
        rw [union_of_fault hu] at h
        cases h
      | choice =>
        rw [union_of_choice hu] at h
        obtain ⟨list, -, rfl⟩ := map_ok h
        refine .of_generated hn (generated_oneOf _) ?_
        rw [origin_of_choice hs (by simp [hu]), harr]
        rfl
      | nullable member =>
        cases hf : options.flattenNullableUnions with
        | true =>
          have hflat : union options members enclosing = node options member enclosing :=
            union_of_flattened hu hf
          rw [hflat] at h
          have hmember := ih member (.member hs (mem_of_unionForm hu)) h
          rw [TakesFromOrigin, hf] at hmember
          rw [TakesFromOrigin, origin_of_nullable hs hu, hf, if_pos rfl]
          exact hmember
        | false =>
          have hnone : custom? name (origin options.flattenNullableUnions schema) = none := by
            rw [origin_of_nullable hs hu, hf, if_neg Bool.false_ne_true, harr]
            rfl
          exact .of_generated hn (generated_of_nullable hu hf h) hnone

/-! ### The header under the keywords -/

/-- The address of the draft stands at the top of the header. -/
theorem schemaUrl_header (draft : Draft) (c : Context) :
    (header draft c).attr? "$schema" = some (.str draft.schemaUrl) := by
  rw [header, Json.Entries.attr?, Table.get?, if_pos (Json.Key.text_beq_self _)]

/-- What is put over a header keyword is all that can be there instead of it. -/
theorem or_eq_some_iff {a : Option Json} {b : Json} :
    a.or (some b) = some b ↔ ∀ value, a = some value → value = b := by
  cases a with
  | none => simp
  | some value => simp

/-- **The header is the draft's unless a custom property of the origin takes its place.**  The
document of a schema has the address of the draft under the keyword for it, and the definitions
table under the keyword of the draft if anything is defined, exactly where no custom property of
the object that the schema comes down to puts something else there. -/
theorem header_of_draft (options : Options) (schema document : Json)
    (h : ofSchema options schema = .ok document) :
    ∃ (entries root : Json.Entries) (c : Context),
      document = .obj entries ∧ run options schema = (.ok root, c)
      ∧ (entries.attr? "$schema" = some (.str options.draft.schemaUrl) ↔
          ∀ value, custom? "$schema" (origin options.flattenNullableUnions schema) = some value →
            value = .str options.draft.schemaUrl)
      ∧ (c.definitions ≠ [] →
          (entries.attr? options.draft.definitionsKeyword = some (definitionsTable c) ↔
            ∀ value, custom? options.draft.definitionsKeyword
                (origin options.flattenNullableUnions schema) = some value →
              value = definitionsTable c)) := by
  obtain ⟨root, c, hrun, rfl⟩ := ofSchema_ok h
  have hnode : outcome (node options schema []) Context.empty = (.ok root, c) := hrun
  refine ⟨_, root, c, rfl, hrun, ?_, fun hdefined => ?_⟩
  · obtain ⟨hroot, honce⟩ :=
      root_header_keyword (by decide : Text.ofString "$schema" ∉ generated) hnode
    rw [Json.Entries.attr?, honce.get?_merge (Json.Key.sharp_text _)]
    show (root.attr? "$schema").or ((header options.draft c).attr? "$schema") = _ ↔ _
    rw [hroot, schemaUrl_header]
    exact or_eq_some_iff
  · have hn : options.draft.definitionsKeyword ∉ generated := by
      cases options.draft <;> decide
    obtain ⟨q, hq⟩ := List.exists_mem_of_ne_nil _ (mt List.map_eq_nil_iff.1 hdefined)
    obtain ⟨hroot, honce⟩ := root_header_keyword hn hnode
    rw [Json.Entries.attr?, honce.get?_merge (Json.Key.sharp_text _)]
    show (root.attr? _).or ((header options.draft c).attr? options.draft.definitionsKeyword)
      = _ ↔ _
    rw [hroot, definitions_header hq]
    exact or_eq_some_iff

/-- A list whose elements have an owner and a tag.  The tag is of an enum with a property that is
named like the keyword for the address. -/
def ownedList : Json :=
  .obj [(.text "type", "record"), (.text "name", "Node"), (.text "owner", "me"),
    (.text "fields", .arr [
      .obj [(.text "name", "next"), (.text "type", .arr ["null", "Node"])],
      .obj [(.text "name", "tag"), (.text "type", .obj [(.text "type", "enum"),
        (.text "name", "Tag"), (.text "symbols", .arr []), (.text "$schema", "mine")])]])]

theorem header_of_draft_ownedList :
    ∃ (entries root : Json.Entries) (c : Context),
      ofSchema Options.strict ownedList = .ok (.obj entries)
        ∧ run Options.strict ownedList = (.ok root, c)
        ∧ c.definitions.keys = ["Node"].map Text.ofString
        ∧ entries.attr? "$schema" = some "http://json-schema.org/draft-07/schema#"
        ∧ entries.attr? "definitions" = some (definitionsTable c) := by
  have hok : (ofSchema Options.strict ownedList).toBool = true := by decide +kernel
  have hkeys : (run Options.strict ownedList).2.definitions.keys = ["Node"].map Text.ofString := by
    decide +kernel
  have hurl : custom? "$schema" (origin false ownedList) = none := by with_unfolding_all rfl
  have htable : custom? "definitions" (origin false ownedList) = none := by with_unfolding_all rfl
  cases hd : ofSchema Options.strict ownedList with
  | error fault =>
    rw [hd] at hok
    cases hok
  | ok document =>
    obtain ⟨entries, root, c, rfl, hrun, hheader, hdefinitions⟩ :=
      header_of_draft Options.strict ownedList document hd
    rw [hrun] at hkeys
    have hdefined : c.definitions ≠ [] := by
      rintro hnil
      rw [hnil] at hkeys
      cases hkeys
    refine ⟨entries, root, c, rfl, hrun, hkeys, ?_, ?_⟩
    · refine hheader.2 fun value hv => ?_
      cases hurl.symm.trans hv
    · refine (hdefinitions hdefined).2 fun value hv => ?_
      cases htable.symm.trans hv

/-- The linked list with properties that are named like the keywords of the header. -/
def relabelledList : Json :=
  .obj [(.text "type", "record"), (.text "name", "Node"),
    (.text "fields", .arr [.obj [(.text "name", "next"), (.text "type", .arr ["null", "Node"])]]),
    (.text "$schema", "mine"), (.text "definitions", "mine")]

/-- Its document. -/
def relabelledDocument : Json.Entries :=
  [(.text "$schema", "mine"), (.text "definitions", "mine"), (.text "type", "object"),
    (.text "title", "Node"),
    (.text "properties", .obj [(.text "next", .obj [(.text "oneOf", .arr [
      .obj [(.text "type", "null")], .obj [(.text "$ref", "#/definitions/Node")]])])]),
    (.text "required", .arr [])]

/-- The properties stand in the places of the address and of the table, and the reference to the
record leads nowhere. -/
theorem header_replaced :
    ∃ (root : Json.Entries) (c : Context),
      ofSchema Options.strict relabelledList = .ok (.obj relabelledDocument)
        ∧ run Options.strict relabelledList = (.ok root, c)
        ∧ c.definitions ≠ []
        ∧ relabelledDocument.attr? "$schema" ≠ some (.str Options.strict.draft.schemaUrl)
        ∧ relabelledDocument.attr? Options.strict.draft.definitionsKeyword
          ≠ some (definitionsTable c)
        ∧ Pointer.resolve (.obj relabelledDocument) "#/definitions/Node" = none := by
  have hurl : relabelledDocument.attr? "$schema" = some "mine" := by with_unfolding_all rfl
  have htable : relabelledDocument.attr? Options.strict.draft.definitionsKeyword = some "mine" := by
    with_unfolding_all rfl
  have hok : (run Options.strict relabelledList).1.toBool = true := by decide +kernel
  have hkeys : (run Options.strict relabelledList).2.definitions.keys.length = 1 := by
    decide +kernel
  rcases hrun : run Options.strict relabelledList with ⟨_ | root, c⟩
  · rw [hrun] at hok
    cases hok
  rw [hrun] at hkeys
  refine ⟨root, c, by with_unfolding_all rfl, rfl, ?_, ?_, ?_, ?_⟩
  · rintro hnil
    rw [hnil] at hkeys
    cases hkeys
  · rw [hurl]
    intro h
    exact absurd (Json.str.inj (Option.some.inj h)) (by decide)
  · rw [htable]
    intro h
    cases h
  · exact Option.isNone_iff_eq_none.1 (by decide +kernel)

end Document

end AvroJsonSchema
