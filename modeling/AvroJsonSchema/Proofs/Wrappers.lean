import AvroJsonSchema.Proofs.Lookalikes
import AvroJsonSchema.Proofs.Spelling

/-!
# Wrappers

An object whose type is an object or a list is a wrapper of that type: nothing else in it counts.  The
conversion of a node, its kind and the question whether it admits null each go through a wrapper in a
way of their own, and they agree.  So a wrapper may be put around any object and any list at which a
walk through a schema arrives, and the document is the same where null is flattened.  The definitions
that are stored on the way are not the same: a record around a wrapper is stored with it.

* **`Schema.Wrapped`**: a wrapper has been put around a node somewhere in a schema.
* **`Schema.Wrapped.kind`**, **`Schema.Wrapped.isNullable`**: kinds and nullability stay.
* **`Conversion.matches_wrapped`**: what is made of a node stays.
* **`Document.wrapper_transparent`**: the document stays.
-/

namespace AvroJsonSchema

namespace Schema

/-- In a schema a node that is an object or a list has been replaced by an object that has it as its
type, whatever else that object holds.  The node is the schema itself or stands at a place to which a
walk goes: among the members of a union, inside another wrapper, as the items of an array, as the values
of a map, or as the type of a field. -/
inductive Wrapped : Json → Json → Prop
  | here {j : Json} {wrapper : Json.Entries} :
      ¬Plain j → wrapper.attr? "type" = some j → Wrapped j (.obj wrapper)
  | member {before after : List Json} {j j' : Json} :
      Wrapped j j' → Wrapped (.arr (before ++ j :: after)) (.arr (before ++ j' :: after))
  | inner {attributes : Json.Entries} {j j' : Json} :
      shape (.obj attributes) = .wrapper j → Wrapped j j' →
      Wrapped (.obj attributes) (.obj (attributes.put "type" j'))
  | items {attributes : Json.Entries} {j j' : Json} :
      shape (.obj attributes) = .array j attributes → Wrapped j j' →
      Wrapped (.obj attributes) (.obj (attributes.put "items" j'))
  | values {attributes : Json.Entries} {j j' : Json} :
      shape (.obj attributes) = .map j attributes → Wrapped j j' →
      Wrapped (.obj attributes) (.obj (attributes.put "values" j'))
  | field {name : Text} {attributes field : Json.Entries} {before after : List Json} {j j' : Json} :
      shape (.obj attributes) = .record name attributes →
      attributes.attr? "fields" = some (.arr (before ++ .obj field :: after)) →
      field.attr? "type" = some j → Wrapped j j' →
      Wrapped (.obj attributes)
        (.obj (attributes.put "fields" (.arr (before ++ .obj (field.put "type" j') :: after))))

theorem Wrapped.not_plain {j j' : Json} (h : Wrapped j j') : ¬Plain j' := by
  cases h <;> exact fun hp => hp.elim

/-- What is wrapped somewhere is an object or a list. -/
theorem Wrapped.not_plain_left {j j' : Json} (h : Wrapped j j') : ¬Plain j := by
  cases h with
  | here hj _ => exact hj
  | _ => exact fun hp => hp.elim

/-- Objects of one type that is a text have the same kind, and admit null alike. -/
theorem kind_of_same_type {attributes attributes' : Json.Entries} {t : Text}
    (h : attributes.attr? "type" = some (.str t)) (h' : attributes'.attr? "type" = some (.str t)) :
    kind (.obj attributes) = kind (.obj attributes')
      ∧ isNullable (.obj attributes) = isNullable (.obj attributes') := by
  rw [kind_of_type h, kind_of_type h', isNullable_of_plain_type h trivial,
    isNullable_of_plain_type h' trivial]
  exact ⟨rfl, rfl⟩

/-- An attribute beside the type leaves the kind and the nullability of an object alone. -/
theorem kind_put {attributes : Json.Entries} {t name : Text} (value : Json)
    (h : attributes.attr? "type" = some (.str t)) (hn : name ≠ Text.ofString "type") :
    kind (.obj attributes) = kind (.obj (attributes.put name value))
      ∧ isNullable (.obj attributes) = isNullable (.obj (attributes.put name value)) :=
  kind_of_same_type h ((Json.Entries.attr?_put_of_ne hn value attributes).trans h)

/-- A wrapper around a node has the shape of a wrapper still when the node has been replaced. -/
theorem shape_put_type {attributes : Json.Entries} {j : Json} (h : ¬Plain j) :
    shape (.obj (attributes.put "type" j)) = .wrapper j :=
  shape_of_inner (Json.Entries.attr?_put_self "type" j attributes) h

theorem Wrapped.kind {schema wrapped : Json} (h : Wrapped schema wrapped) :
    kind schema = kind wrapped := by
  induction h with
  | here _ ht => rw [kind_of_type ht]
  | member _ _ => rw [kind_arr, kind_arr]
  | inner hs hj ih =>
    rw [kind_of_wrapper hs, kind_of_wrapper (shape_put_type hj.not_plain), ih]
  | items hs _ _ => exact (kind_put _ (type_of_array hs) (by decide)).1
  | values hs _ _ => exact (kind_put _ (type_of_map hs) (by decide)).1
  | field hs _ _ _ _ =>
    rcases (objectShape_record hs).2.2 with ht | ht
    · exact (kind_put _ ht (by decide)).1
    · exact (kind_put _ ht (by decide)).1

/-- Whether some member of a union is null hangs on the kinds of the members alone. -/
theorem anyNull_related {members members' : List Json}
    (h : List.Forall₂ (fun j j' => kind j = kind j') members members') :
    anyNull members = anyNull members' := by
  induction h with
  | nil => rfl
  | cons hj _ ih => rw [anyNull, anyNull, hj, ih]

/-- Two lists are related if they differ in one place and the two items there are related. -/
theorem related_around {α : Type} {R : α → α → Prop} {before after : List α} {a b : α}
    (hrefl : ∀ x ∈ before ++ after, R x x) (h : R a b) :
    List.Forall₂ R (before ++ a :: after) (before ++ b :: after) :=
  List.rel_append (List.forall₂_same.2 fun x hx => hrefl x (List.mem_append_left after hx))
    (.cons h (List.forall₂_same.2 fun x hx => hrefl x (List.mem_append_right before hx)))

theorem Wrapped.isNullable {schema wrapped : Json} (h : Wrapped schema wrapped) :
    isNullable schema = isNullable wrapped := by
  induction h with
  | here hj ht => rw [isNullable_of_wrapper (shape_of_inner ht hj)]
  | member hj _ =>
    rw [isNullable_arr, isNullable_arr]
    exact anyNull_related (related_around (fun _ _ => rfl) hj.kind)
  | inner hs hj ih =>
    rw [isNullable_of_wrapper hs, isNullable_of_wrapper (shape_put_type hj.not_plain), ih]
  | items hs _ _ => exact (kind_put _ (type_of_array hs) (by decide)).2
  | values hs _ _ => exact (kind_put _ (type_of_map hs) (by decide)).2
  | field hs _ _ _ _ =>
    rcases (objectShape_record hs).2.2 with ht | ht
    · exact (kind_put _ ht (by decide)).2
    · exact (kind_put _ ht (by decide)).2

end Schema

namespace Conversion

open Schema Step Context Spelling

variable {setup : Setup} {s t : Table Text Json.Entries} {enclosing : Text}

/-- An array is an array still when other items are put in. -/
theorem shape_put_items {items : Json} {attributes : Json.Entries}
    (hs : shape (.obj attributes) = .array items attributes) (other : Json) :
    shape (.obj (attributes.put "items" other)) = .array other (attributes.put "items" other) := by
  have htype : (attributes.put "items" other).attr? "type" = some (.str Complex.array.text) :=
    (Json.Entries.attr?_put_of_ne (by decide) other attributes).trans (type_of_array hs)
  exact objectShape_of_array htype (Json.Entries.attr?_put_self "items" other attributes)

/-- A map is a map still when other values are put in. -/
theorem shape_put_values {values : Json} {attributes : Json.Entries}
    (hs : shape (.obj attributes) = .map values attributes) (other : Json) :
    shape (.obj (attributes.put "values" other)) = .map other (attributes.put "values" other) := by
  have htype : (attributes.put "values" other).attr? "type" = some (.str Complex.map.text) :=
    (Json.Entries.attr?_put_of_ne (by decide) other attributes).trans (type_of_map hs)
  exact objectShape_of_map htype (Json.Entries.attr?_put_self "values" other attributes)

/-- The parts of a field around a type that is no text are the same when another such type is put in
its place, and so is the fault where it has no name. -/
theorem fieldParts_put_type {record : Text} {field : Json.Entries} {j j' : Json} (hj : ¬Plain j)
    (hj' : ¬Plain j') (ht : field.attr? "type" = some j) :
    (∃ fault, fieldParts record (.obj field) = .error fault
        ∧ fieldParts record (.obj (field.put "type" j')) = .error fault)
      ∨ ∃ name, fieldParts record (.obj field) = .ok (field, name, j)
        ∧ fieldParts record (.obj (field.put "type" j')) = .ok (field.put "type" j', name, j') := by
  have ht' : (field.put "type" j').attr? "type" = some j' := Json.Entries.attr?_put_self "type" j' field
  have hname : (field.put "type" j').attr? "name" = field.attr? "name" :=
    Json.Entries.attr?_put_of_ne (by decide) j' field
  cases hn : Json.Entries.attr? "name" field with
  | some name =>
    exact .inr ⟨name, fieldParts_of_attr? hn ht, fieldParts_of_attr? (hname.trans hn) ht'⟩
  | none =>
    have hlabel : typeLabel (field.put "type" j') = typeLabel field := by
      unfold typeLabel
      rw [ht, ht']
      cases j with
      | arr _ => cases j' <;> first | rfl | exact absurd trivial hj'
      | obj _ => cases j' <;> first | rfl | exact absurd trivial hj'
      | _ => exact absurd trivial hj
    refine .inl ⟨missing field "name" record, ?_, ?_⟩
    · simp only [fieldParts, require, hn, bind, Except.bind]
    · simp only [fieldParts, require, hname, hn, bind, Except.bind, missing, hlabel]

/-- **What is made of a node stays when a wrapper is put around a node in it**, where null is
flattened. -/
theorem matches_wrapped (hflatten : setup.options.flattenNullableUnions = true) {schema wrapped : Json}
    (h : Wrapped schema wrapped) (enclosing : Text) :
    Matches s t (node setup schema enclosing) (node setup wrapped enclosing) := by
  induction h generalizing enclosing with
  | here hj ht =>
    rw [node_of_wrapper (shape_of_inner ht hj)]
    exact matches_node setup _ enclosing
  | @member before after j j' hj ih =>
    have hs : ∀ members, shape (.arr members) = .union members := fun _ => rfl
    rw [node_of_union (hs _), node_of_union (hs _)]
    refine matches_union (related_around (fun i _ => ⟨rfl, matches_node setup i enclosing⟩)
      ⟨hj.kind, ih enclosing⟩) fun hoff => ?_
    rw [hflatten] at hoff
    cases hoff
  | inner hs hj ih =>
    rw [node_of_wrapper hs, node_of_wrapper (shape_put_type hj.not_plain)]
    exact ih enclosing
  | @items attributes j j' hs _ ih =>
    have halike := (Alike.refl attributes).put (by decide : Text.ofString "items" ∈ changed) j'
    have hkeywords : arrayKeywords setup.options (attributes.put "items" j') =
        arrayKeywords setup.options attributes := funext halike.arrayKeywords
    rw [node_of_array hs, node_of_array (shape_put_items hs j'), hkeywords]
    exact (ih enclosing).map _
  | @values attributes j j' hs _ ih =>
    have halike := (Alike.refl attributes).put (by decide : Text.ofString "values" ∈ changed) j'
    have hkeywords : mapKeywords setup.options (attributes.put "values" j') =
        mapKeywords setup.options attributes := funext halike.mapKeywords
    rw [node_of_map hs, node_of_map (shape_put_values hs j'), hkeywords]
    exact (ih enclosing).map _
  | @field name attributes field before after j j' hs hl ht hj ih =>
    have hs' := shape_put_fields hs (.arr (before ++ .obj (field.put "type" j') :: after))
    refine matches_record hs hs' (ofNamed_put_fields name attributes _ _) fun qualified => ?_
    obtain ⟨list, hlist, hitems⟩ := fieldList_of_attr? qualified hl
    obtain ⟨list', hlist', hitems'⟩ := fieldList_of_attr? qualified
      (Json.Entries.attr?_put_self "fields" (.arr (before ++ .obj (field.put "type" j') :: after))
        attributes)
    refine matches_recordBody (.inr ⟨list, list', hlist, hlist', ?_⟩) ?_
    · rw [hitems, hitems']
      refine related_around (fun f _ => matches_property_self fun _ _ type _ =>
        matches_node setup type) (matches_property ?_)
      rcases fieldParts_put_type hj.not_plain_left hj.not_plain ht with hfault | ⟨fieldName, hp, hp'⟩
      · exact .inl hfault
      · exact .inr ⟨_, _, fieldName, j, j', hp, hp',
          funext ((Alike.refl field).put (by decide) j').decorate, hj.isNullable, ih⟩
    · have halike := (Alike.refl attributes).put (by decide : Text.ofString "fields" ∈ changed)
        (.arr (before ++ .obj (field.put "type" j') :: after))
      exact funext fun properties => funext (halike.recordKeywords qualified properties)

end Conversion

namespace Document

open Schema Step Conversion

/-- **Wrappers are transparent.**  Where unions of null and another type are flattened, let any object or
list to which a walk through a schema goes be replaced by an object that has it as its type and whatever
attributes besides.  The schema has a document if it had one, and this is the same document, down to
the required lists of all records and the order of the keys; and it has none if it had none, for the
same fault. -/
theorem wrapper_transparent (options : Options) (hflatten : options.flattenNullableUnions = true)
    (schema wrapped : Json) (h : Wrapped schema wrapped) :
    ofSchema options wrapped = ofSchema options schema := by
  have hmatches : Matches [] [] (node options schema []) (node options wrapped []) :=
    matches_wrapped hflatten h []
  obtain ⟨hresult, -, -, finished, hdefined, hdefined'⟩ :
      (run options schema).1 = (run options wrapped).1
        ∧ (run options schema).2.Lookalike [] [] (run options wrapped).2 :=
    hmatches Context.empty Context.empty (.refl Context.empty)
  have hheader : header options.draft (run options wrapped).2 =
      header options.draft (run options schema).2 := by
    unfold header definitionsTable
    rw [hdefined, hdefined']
  rw [ofSchema_eq, ofSchema_eq]
  rcases hx : run options schema with ⟨result, c⟩
  rcases hy : run options wrapped with ⟨result', d⟩
  rw [hx, hy] at hresult hheader
  obtain rfl : result = result' := hresult
  cases result with
  | error fault => rfl
  | ok root =>
    show Except.ok _ = Except.ok _
    rw [hheader]

/-- A record with one field, which leads to the next one. -/
def chain (next : Json) : Json :=
  .obj [(.text "type", "record"), (.text "name", "Chain"), (.text "fields", .arr [
    .obj [(.text "name", "next"), (.text "type", next)]])]

/-- The next record, if there is one. -/
def nextChain : Json :=
  .arr ["null", "Chain"]

/-- The same in a wrapper with a doc and a default of its own, which are not looked at. -/
def wrappedNext : Json :=
  .obj [(.text "doc", "Nothing at the end."), (.text "type", nextChain), (.text "default", .null)]

/-- A field whose type is wrapped is required no more than before. -/
theorem wrapper_transparent_chain :
    Wrapped (chain nextChain) (chain wrappedNext)
      ∧ (∃ document, ofSchema Options.pojoOptimized (chain nextChain) = .ok document)
      ∧ ofSchema Options.pojoOptimized (chain wrappedNext) =
          ofSchema Options.pojoOptimized (chain nextChain) := by
  have hnext : Wrapped nextChain wrappedNext := .here (fun h => h) rfl
  have hwrapped : Wrapped (chain nextChain) (chain wrappedNext) :=
    @Wrapped.field "Chain" _ [(.text "name", "next"), (.text "type", nextChain)] [] [] nextChain
      wrappedNext rfl rfl rfl hnext
  have haccepted : (ofSchema Options.pojoOptimized (chain nextChain)).toBool = true := by decide +kernel
  cases h : ofSchema Options.pojoOptimized (chain nextChain) with
  | error fault => rw [h] at haccepted; cases haccepted
  | ok document =>
    refine ⟨hwrapped, ⟨document, rfl⟩, ?_⟩
    rw [← h]
    exact wrapper_transparent Options.pojoOptimized rfl _ _ hwrapped

end Document

end AvroJsonSchema
