import AvroJsonSchema.Proofs.Meaning
import AvroJsonSchema.Proofs.References
import AvroJsonSchema.Proofs.RenderedData

/-!
# Documents accept data

A schema that is converted without flattening unions means a type, and its document accepts every
datum of this type, as long as fields and members of unions can be told apart.  References are
followed into the definitions table, by their names or, where no name holds a mark of a pointer, as
pointers.

* **`Document.definition?`**: the entry of the definitions table that a reference names.
* **`Document.resolves_of_written`**: references lead to the records that they name.
* **`Document.accepts_data`**: every datum is accepted.
-/

namespace AvroJsonSchema

open Json Schema Step AvroType JsonSchema

namespace Document

open Context Conversion

variable {options : Options} {c : Context} {schema : Json} {keywords : Entries} {type : AvroType}

/-- The entry of the definitions table that a reference names. -/
def definition? (draft : Draft) (document : Json) (reference : Text) : Option Json :=
  match document with
  | .obj root =>
    (Text.after? draft.referenceRoot reference).bind fun name =>
      match Entries.attr? draft.definitionsKeyword root with
      | some (.obj table) => Entries.attr? name table
      | _ => none
  | _ => none

theorem definition?_reference {draft : Draft} {q : Text} {root table : Entries}
    (ht : root.attr? draft.definitionsKeyword = some (.obj table)) :
    definition? draft (.obj root) (draft.referenceRoot ++ q) = table.attr? q := by
  simp only [definition?, Text.after?_append, Option.bind_some, ht]

/-- The header says nothing about values. -/
theorem essential_header (draft : Draft) (c : Context) : essential (header draft c) = [] := by
  have hdefinitions : annotates (.text draft.definitionsKeyword) = true := by
    cases draft <;> decide
  have hschema : annotates (.text "$schema") = true := by decide
  unfold header
  split <;> simp [essential, hdefinitions, hschema]

/-- Bare objects carry over no property at all, and so none that is named like a keyword. -/
theorem unambiguous_of_bare {attributes : Entries} (h : Bare attributes) : Unambiguous attributes := by
  intro e he
  rw [h.2] at he
  cases he

/-- References lead to the records that they name, however they are followed, if the records of a type
have been written and are found where their full names lead. -/
theorem resolves_of_written {resolve : Text → Option Json} (hd : type.Distinguishable)
    (hw : Progress options Context.empty c [type])
    (hresolve : ∀ q entry fields, Within (.record q fields) type → c.definitions.get? q = some entry →
      resolve (options.draft.referenceRoot ++ q) = some (.obj entry)) :
    Resolves options resolve type where
  record q fields hq := by
    obtain ⟨entry, hentry, hrenders⟩ :=
      hw.written type List.mem_cons_self q fields hq (hd.of_within hq)
    exact ⟨entry, hresolve q entry fields hq hentry, hrenders⟩
  reference q hq := by
    have hseen := hw.referred type List.mem_cons_self q hq
    rcases hw.entered q hseen with hnone | ⟨t, ht, fields, hrecord⟩
    · cases hnone
    · exact ⟨fields, List.mem_singleton.1 ht ▸ hrecord⟩

/-- The header is made of annotations, so that a document judges as its keywords judge. -/
theorem essential_document (draft : Draft) (hr : Renders options type keywords) :
    essential ((header draft c).merge keywords) = essential keywords :=
  essential_merge (essential_header draft c) hr.textKeyed

/-- **Every datum is accepted.**  If unions are not flattened and no object of a schema has a
recognised logical type or a custom property, the schema means a type as soon as it has a document;
and if the records of the type tell their fields apart and the unions their members, the document
accepts every datum of the type, with references followed into the definitions table.  They may be
followed as pointers if the name of no record holds a mark of a pointer.  The document accepts no value
of another family than the one of the type, if it has one. -/
theorem accepts_data (options : Options) (schema document : Json)
    (hflatten : options.flattenNullableUnions = false)
    (hschema : ∀ attributes, Below (.obj attributes) schema → Bare attributes)
    (hdocument : ofSchema options schema = .ok document) :
    ∃ type, AvroType.ofSchema? schema = some type ∧ (type.Distinguishable →
      (∀ value, Datum type type value →
        Accepts options.draft (definition? options.draft document) document value
          ∧ ((∀ q fields, Within (.record q fields) type → Pointer.Unmarked q) →
            Accepts options.draft (Pointer.resolve document) document value))
        ∧ ∀ value, type.family? ≠ none → type.family? ≠ some value.family →
          Rejects options.draft (definition? options.draft document) document value) := by
  obtain ⟨keywords, c, hrun, rfl⟩ := ofSchema_ok hdocument
  have hnode : outcome (node options schema []) Context.empty = (.ok keywords, c) := hrun
  obtain ⟨type, scope, hread, hwritten⟩ :=
    writes_node hflatten schema hschema _ _ _ _ _ .empty .empty hnode
  refine ⟨type, by rw [AvroType.ofSchema?, hread]; rfl, fun hd => ?_⟩
  have hrenders := hwritten.renders hd
  have hessential := essential_document (c := c) options.draft hrenders
  have hkeywords : KeywordsReferInto options.draft c.seen keywords :=
    (closed_node (fun attributes hb => unambiguous_of_bare (hschema attributes hb)) schema _ _ _ _
      .whole .empty hnode fun q hq => hq).1
  have htable : Resolves options (definition? options.draft
      (.obj ((header options.draft c).merge keywords))) type := by
    refine resolves_of_written hd hwritten.progress fun q entry fields _ hentry => ?_
    obtain ⟨table, ht, hq⟩ := definition_found hkeywords hentry
    exact (definition?_reference ht).trans hq
  have haccepts : ∀ resolve value, Resolves options resolve type → Datum type type value →
      Accepts options.draft resolve (.obj ((header options.draft c).merge keywords)) value := by
    intro resolve value hresolves hdatum
    rw [← accepts_essential, hessential, accepts_essential]
    exact Renders.accepts hresolves hd hdatum (.self type) hrenders
  refine ⟨fun value hdatum => ⟨haccepts _ value htable hdatum, fun hunmarked => ?_⟩, ?_⟩
  · refine haccepts _ value ?_ hdatum
    refine resolves_of_written hd hwritten.progress fun q entry fields hw hentry => ?_
    obtain ⟨table, ht, hq⟩ := definition_found hkeywords hentry
    exact Pointer.resolve_reference (hunmarked q fields hw) ht hq
  · intro value hunion hfamily
    rw [← rejects_essential, hessential, rejects_essential]
    exact Renders.rejects htable (.self type) hrenders hunion hfamily

/-- The type that the list whose elements are linked by name means. -/
def linkedListType : AvroType :=
  .record "Node" [(.text "next", .union [.primitive .null, .reference "Node"])]

theorem linkedListType_distinguishable : linkedListType.Distinguishable := by
  intro s hs
  cases hs with
  | self => exact ⟨by simp, by simp⟩
  | field hf hs =>
    cases List.mem_singleton.1 hf
    cases hs with
    | self => exact ⟨by simp [family?], by simp [family?, Primitive.family]⟩
    | member hm hs =>
      simp only [List.mem_cons, List.not_mem_nil, or_false] at hm
      rcases hm with rfl | rfl
      · cases hs
        trivial
      · cases hs
        trivial

/-- An element without a next one, and one before it. -/
theorem linkedListType_datum :
    Datum linkedListType linkedListType (.obj [(.text "next", .obj [])]) := by
  have hlast : Datum linkedListType linkedListType (.obj []) := by
    refine .record Entries.textKeyed_nil (by simp) (by simp) fun f hf => .inr ?_
    rw [List.mem_singleton.1 hf]
    exact List.mem_cons_self
  refine .record (Entries.textKeyed_nil.put "next" _) ?_ ?_ ?_
  · intro e he
    rw [List.mem_singleton.1 he]
    exact ⟨_, List.mem_cons_self⟩
  · intro key t v hf he
    cases List.mem_singleton.1 hf
    cases List.mem_singleton.1 he
    exact .union (List.mem_cons_of_mem _ List.mem_cons_self) (.reference (.self _) hlast)
  · intro f hf
    rw [List.mem_singleton.1 hf]
    exact .inl List.mem_cons_self

theorem accepts_data_linkedList :
    ∃ document, ofSchema (Options.pojoOptimized.setToggle .flattenNullableUnions false) linkedList
        = .ok document
      ∧ Accepts .draft07 (Pointer.resolve document) document (.obj [(.text "next", .obj [])])
      ∧ Rejects .draft07 (definition? .draft07 document) document (.arr []) := by
  have hbare : ∀ attributes, Below (.obj attributes) linkedList → Bare attributes := by
    intro attributes h
    cases linkedList_of_below h
    exact ⟨by decide, by decide⟩
  have hok : (ofSchema (Options.pojoOptimized.setToggle .flattenNullableUnions false)
      linkedList).toBool = true := by decide +kernel
  have hmeans : AvroType.ofSchema? linkedList = some linkedListType := by with_unfolding_all rfl
  cases hd : ofSchema (Options.pojoOptimized.setToggle .flattenNullableUnions false) linkedList with
  | error fault =>
    rw [hd] at hok
    cases hok
  | ok document =>
    obtain ⟨type, htype, haccepts⟩ := accepts_data
      (Options.pojoOptimized.setToggle .flattenNullableUnions false) linkedList document rfl hbare hd
    rw [hmeans] at htype
    cases htype
    have hunmarked : ∀ q fields, Within (.record q fields) linkedListType → Pointer.Unmarked q := by
      intro q fields hw
      cases hw with
      | self => decide
      | field hf hw =>
        cases List.mem_singleton.1 hf
        cases hw with
        | member hm hw =>
          simp only [List.mem_cons, List.not_mem_nil, or_false] at hm
          rcases hm with rfl | rfl <;> cases hw
    obtain ⟨hdata, hothers⟩ := haccepts linkedListType_distinguishable
    exact ⟨document, rfl, (hdata _ linkedListType_datum).2 hunmarked,
      hothers (.arr []) (by decide) (by decide)⟩

end Document

end AvroJsonSchema
