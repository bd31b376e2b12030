import AvroJsonSchema.Proofs.Nullability

/-!
# The required fields of a record

The names that come to be required while the fields of a record are converted are those of the fields
whose types do not admit null, and they stand in the record under one keyword.  Where the conversion
of a type agrees with the look at it, a field is left out of them exactly if its property admits null.

* **`Schema.requiredNames`**: the names of the fields whose types do not admit null.
* **`Conversion.FieldRun.required_eq`**: these names come to be required.
* **`Conversion.FieldRun.left_out_iff`**: a field is left out if its property admits null.
* **`Conversion.required_iff_not_nullable`**: the required list of a record.
-/

namespace AvroJsonSchema

open Json Schema Step

namespace Schema

/-- The name of a field unless its type admits null. -/
def requiredName? : Json → Option Json
  | .obj attributes =>
    match Entries.attr? "type" attributes with
    | some type => if admitsNull type then none else Entries.attr? "name" attributes
    | none => none
  | _ => none

/-- The names of the fields whose types do not admit null, in order. -/
def requiredNames (fields : List Json) : List Json :=
  fields.filterMap requiredName?

end Schema

namespace Keywords

variable {options : Options} {attributes : Entries}

/-- The names required in a record stand in its frame, unless there are none and no empty list is
asked for. -/
theorem required_recordFrame (name : Text) (properties : Entries) (required : List Json) :
    (recordFrame options name attributes properties required).attr? "required" =
      if options.omitEmptyRequired && required.isEmpty then none else some (.arr required) := by
  have hbefore : (((withType options attributes .object).put "title" (.str (Name.localOf name))).put
      "properties" (.obj properties)).attr? "required" = none := by
    rw [Entries.attr?_put_of_ne (by decide), Entries.attr?_put_of_ne (by decide)]
    have hdecided : (withType options attributes .object).KeysAmong decided := by
      refine Entries.KeysAmong.putIfAbsent ?_ (by decide) _
      unfold ofLogicalType
      split
      · exact decided_keywords _ _
      · simp [Entries.KeysAmong]
    exact hdecided.attr?_eq_none (by decide)
  unfold recordFrame
  dsimp only
  split <;> split
  · rwa [Entries.attr?_put_of_ne (by decide)]
  · rw [Entries.attr?_put_of_ne (by decide), Entries.attr?_put_self]
  · exact hbefore
  · exact Entries.attr?_put_self _ _ _

end Keywords

namespace Conversion

theorem requiredName?_of_type {type : Json} {attributes : Entries}
    (h : attributes.attr? "type" = some type) :
    requiredName? (.obj attributes) = if admitsNull type then none else attributes.attr? "name" := by
  unfold requiredName?
  dsimp only
  rw [h]

theorem requiredName?_of_parts {record : Text} {field name type : Json} {attributes : Entries}
    (h : fieldParts record field = .ok (attributes, name, type)) :
    requiredName? field = if admitsNull type then none else some name := by
  obtain ⟨rfl, hn, ht⟩ := fieldParts_ok h
  rw [requiredName?_of_type ht, hn]

/-- The names that come to be required are those of the fields whose types do not admit null. -/
theorem FieldRun.required_eq {setup : Setup} {record : Text} {list : List Json} {c c' : Context}
    {run : List (Key × Entries)} {names : List Json}
    (h : FieldRun setup record list c run names c') : names = requiredNames list := by
  induction h with
  | nil => rfl
  | @cons _ _ _ _ _ _ _ _ nullable _ _ _ _ hp _ _ hnull _ ih =>
    rw [requiredNames, List.filterMap_cons, requiredName?_of_parts hp, admitsNull_of_isNullable hnull]
    cases nullable with
    | false => exact congrArg (List.cons _) ih
    | true => exact ih

open Keywords

variable {options : Options} {enclosing name : Text} {c c' : Context} {attributes es : Entries}
  {schema : Json}

/-! ### Records -/

/-- Wherever a node comes to be converted, nothing that has been named has a logical type or a custom
property. -/
theorem Visit.fitted {whole : Json} (h : Visit options whole schema enclosing c)
    (hflatten : options.flattenNullableUnions = false) (hall : AllBare whole) : Fitted c := by
  have hbelow : ∀ {j i : Json}, Below j whole → Child i j → AllBare i :=
    fun hj hi attributes hb => hall attributes (hj.trans (hi.below.trans hb))
  induction h with
  | whole => exact ⟨.empty, .empty, .empty⟩
  | inner _ _ ih => exact ih
  | items _ _ ih => exact ih
  | values _ _ ih => exact ih
  | nullable _ _ _ ih => exact ih
  | @branch _ _ _ _ _ before _ _ hv hs _ hbranches ih =>
    obtain ⟨hc, scope, hfits⟩ := ih
    have hwritten : ∀ i ∈ before, IsWritten options i := fun i hi =>
      writes_node hflatten i (hbelow hv.stands_below (.member hs (List.mem_append_left _ hi)))
    obtain ⟨_, scope', -, -, hfits', hprogress, -⟩ := writes_branches hwritten hc hfits hbranches
    exact ⟨hprogress.evolves.sound, scope', hfits'⟩
  | @field node _ _ _ _ _ qualified _ c' attributes _ before _ made hv hs hq hseen hl hfields _ ih =>
    obtain ⟨hc, scope, hfits⟩ := ih
    have hwritten : ∀ field ∈ before, ∀ attributes name type,
        fieldParts qualified field = .ok (attributes, name, type) → IsWritten options type := by
      intro field hmem _ _ type hp
      exact writes_node hflatten type (hbelow hv.stands_below
        (child_of_field hs hl (List.mem_append_left _ hmem) hp))
    have hb : Bare attributes := hall attributes (eq_obj_of_record hs ▸ hv.stands_below)
    -- the fields before it are converted from no properties and no required names
    have hfrom : let start : Entries × List Json := ([], [])
        outcome (fields options qualified before start.1 start.2) _ = (.ok made, c') := hfields
    obtain ⟨_, scope', -, hw⟩ := writes_fields hwritten
      (hc.enter (defines_of_record hs hq) hseen) (hfits.enter hb) hfrom
    exact ⟨hw.progress.evolves.sound, scope', hw.fits⟩

/-- A field is left out of the required ones if and only if its property admits null. -/
theorem FieldRun.left_out_iff {record : Text} {list : List Json} {run : List (Key × Entries)}
    {names : List Json} (h : FieldRun options record list c run names c')
    (hflatten : options.flattenNullableUnions = false) (hc : Fitted c)
    (hall : ∀ field ∈ list, ∀ attributes name type,
      fieldParts record field = .ok (attributes, name, type) → AllBare type) :
    list.length = run.length
      ∧ ∀ e ∈ list.zip run, requiredName? e.1 = none ↔ e.2.2.AdmitsNull := by
  induction h with
  | nil => exact ⟨rfl, by simp⟩
  | cons hp _ hnode _ _ ih =>
    have htype := hall _ List.mem_cons_self _ _ _ hp
    obtain ⟨hlength, hrest⟩ := ih (hc.of_node hflatten htype hnode)
      fun field hmem => hall field (List.mem_cons_of_mem _ hmem)
    refine ⟨congrArg _ hlength, fun e he => ?_⟩
    rw [List.zip_cons_cons] at he
    rcases List.mem_cons.1 he with rfl | he
    · rw [admitsNull_decorate, ← admitsNull_iff hflatten htype hc hnode, requiredName?_of_parts hp]
      simp
    · exact hrest e he

/-- **The required list of a record.**  A record that is converted, and not only referred to, and has
no custom property named required, requires in their order the names of the fields whose types, apart
from wrappers, are neither null nor a union with a member of the kind of null; the keyword is absent
exactly if there are none and an empty list is left out.  Where unions are not flattened and no object
of the whole schema has a recognised logical type or a custom property, every field has a property of
its own, the properties are put in under the names of the fields in order, and a field is left out of
the required ones if and only if its property admits null. -/
theorem required_iff_not_nullable {options : Options} {schema : Json} {name enclosing qualified : Text}
    {attributes es : Entries} {c c' : Context} (hs : shape schema = .record name attributes)
    (hq : Name.ofNamed name attributes enclosing = .ok qualified) (hnew : qualified ∉ c.seen)
    (hcustom : customProperty? "required" attributes = none)
    (h : outcome (node options schema enclosing) c = (.ok es, c')) :
    ∃ list, attributes.attr? "fields" = some (.arr list)
      ∧ es.attr? "required" =
          (if options.omitEmptyRequired && (requiredNames list).isEmpty then none
            else some (.arr (requiredNames list)))
      ∧ ∀ whole, options.flattenNullableUnions = false → AllBare whole →
          Visit options whole schema enclosing c →
          ∃ run names c₁, FieldRun options qualified list (c.enter qualified attributes) run names c₁
            ∧ es.attr? "properties" = some (.obj (Table.ofPairs (propertyEntries run)))
            ∧ list.length = run.length
            ∧ ∀ e ∈ list.zip run, requiredName? e.1 = none ↔ e.2.2.AdmitsNull := by
  obtain ⟨q, hq', ⟨hseen, -⟩ | ⟨-, list, made, c₁, hl, hf, rfl, -⟩⟩ := record_ok hs h
  · cases hq.symm.trans hq'
    exact absurd hseen hnew
  cases hq.symm.trans hq'
  obtain ⟨run, names, hrun, rfl⟩ := fieldRun_of_ok hf
  obtain rfl := hrun.required_eq
  refine ⟨list.1, fieldList_ok hl, ?_, fun whole hflatten hall hvisit => ?_⟩
  · exact (attr?_annotate_of_none hcustom (by decide)).trans (required_recordFrame _ _ _)
  · have hbelow := hvisit.stands_below
    have hb : Bare attributes := hall attributes (eq_obj_of_record hs ▸ hbelow)
    have hfitted := hvisit.fitted hflatten hall
    obtain ⟨hc, scope, hfits⟩ := hfitted
    have hentered : Fitted (c.enter qualified attributes) :=
      ⟨hc.enter (defines_of_record hs hq) hnew, _, hfits.enter hb⟩
    obtain ⟨hlength, hagree⟩ := hrun.left_out_iff hflatten hentered
      fun field hmem _ _ type hp attributes hbare => hall attributes
        (hbelow.trans ((child_of_field hs (fieldList_ok hl) hmem hp).below.trans hbare))
    refine ⟨run, _, c₁, hrun, ?_, hlength, hagree⟩
    exact (attr?_annotate_of_none (customProperty?_of_nil hb.2 _) (by decide)).trans
      (properties_recordFrame _ _ _)

/-- The fields of an order: its number, a note that may be null, and a gap that is null alone. -/
def orderFields : List Json :=
  [.obj [(.text "name", "id"), (.text "type", "long")],
    .obj [(.text "name", "note"), (.text "type", .arr ["string", "null"])],
    .obj [(.text "name", "gap"), (.text "type", .arr ["null"])]]

/-- An order. -/
def order : Json :=
  .obj [(.text "type", "record"), (.text "name", "Order"), (.text "fields", .arr orderFields)]

theorem requiredNames_orderFields : requiredNames orderFields = [.str "id"] := by
  have hid : admitsNull (.str "long") = false := by
    rw [admitsNull, origin_of_not_wrapper (by simp [shape])]
    decide
  have hnote : admitsNull (.arr [.str "string", .str "null"]) = true := by
    rw [admitsNull_of_arr]
    exact List.any_eq_true.2 ⟨.str "null", by simp, hasNullKind_iff.2 (kind_of_plain trivial)⟩
  have hgap : admitsNull (.arr [.str "null"]) = true := by
    rw [admitsNull_of_arr]
    exact List.any_eq_true.2 ⟨.str "null", by simp, hasNullKind_iff.2 (kind_of_plain trivial)⟩
  rw [requiredNames, orderFields, List.filterMap_cons_some (b := .str "id"),
    List.filterMap_cons_none, List.filterMap_cons_none, List.filterMap_nil]
  · rw [requiredName?_of_type rfl, hgap, if_pos rfl]
  · rw [requiredName?_of_type rfl, hnote, if_pos rfl]
  · rw [requiredName?_of_type rfl, hid]
    rfl

theorem allBare_order : AllBare order := by
  intro attributes h
  have hs : ∃ es, order = .obj es ∧ shape order = .record "Order" es := ⟨_, rfl, rfl⟩
  obtain ⟨es, hes, hs⟩ := hs
  rcases below_record hs h with hself | ⟨list, field, type, hl, hf, ht, hb⟩
  · cases hself
    exact ⟨rfl, rfl⟩
  · cases hes
    cases hl
    simp only [orderFields, List.mem_cons, List.not_mem_nil, or_false] at hf
    rcases hf with hf | hf | hf <;> cases hf <;> cases ht
    · cases below_str hb
    all_goals
      rcases below_arr hb with hc | ⟨member, hm, hb⟩
      · cases hc
      · simp only [List.mem_cons, List.not_mem_nil, or_false] at hm
        rcases hm with rfl | rfl <;> cases below_str hb

theorem required_iff_not_nullable_order :
    ∃ (es : Entries) (c' : Context),
      outcome (node Options.strict order []) Context.empty = (.ok es, c')
      ∧ es.attr? "required" = some (.arr ["id"])
      ∧ ∃ run : List (Key × Entries),
        es.attr? "properties" = some (.obj (Table.ofPairs (propertyEntries run)))
        ∧ orderFields.length = run.length
        ∧ ∀ e ∈ orderFields.zip run, requiredName? e.1 = none ↔ e.2.2.AdmitsNull := by
  have hs : ∃ attributes, shape order = .record "Order" attributes := ⟨_, rfl⟩
  obtain ⟨attributes, hs⟩ := hs
  have hok : (outcome (node Options.strict order []) Context.empty).1.toBool = true := by
    decide +kernel
  rcases ho : outcome (node Options.strict order []) Context.empty with ⟨result, c'⟩
  rw [ho] at hok
  cases result with
  | error fault => cases hok
  | ok es =>
    have hes := eq_obj_of_record hs
    cases hes
    have hunseen : Text.ofString "Order" ∉ Context.empty.seen := by simp [Context.empty]
    obtain ⟨list, hl, hrequired, hagree⟩ := required_iff_not_nullable hs rfl hunseen rfl ho
    cases hl
    obtain ⟨run, _, _, -, hproperties, hlength, hiff⟩ := hagree order rfl allBare_order .whole
    rw [requiredNames_orderFields] at hrequired
    exact ⟨es, c', rfl, hrequired, run, hproperties, hlength, hiff⟩

end Conversion

end AvroJsonSchema
