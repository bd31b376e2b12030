import AvroJsonSchema.Proofs.Erasure
import AvroJsonSchema.Proofs.Origins
import AvroJsonSchema.Proofs.Provenance

/-!
# What the switches govern

The switches beside the one for unions have no part in the outline of a schema, and each decides
about one keyword where an outline is written.  Once these keywords are erased at every schema of a
document, nothing tells how the switches were set.

* **`Schema.ToggleFree`**: no custom property is named like one of these keywords.
* **`Keywords.alike_recordFrame`** and its siblings: the keywords of a node under other switches.
* **`Outline.alike_write`**: what is left of a written outline does not depend on the switches.
* **`Outline.once_write`**: no keyword is written twice.
* **`Document.toggles_local`**: what is left of a document does not depend on the switches.
-/

namespace AvroJsonSchema

open Table

/-! ### Keywords under other switches -/

open Json Json.Entries

/-- No custom property of an object is named like a keyword that a switch decides about. -/
def Schema.ToggleFree (attributes : Json.Entries) : Prop :=
  ∀ e ∈ customProperties attributes, ¬e.1.IsToggled

namespace Keywords

variable {o₁ o₂ : Options} {attributes t u : Json.Entries}

theorem open_ofLogicalType (o : Options) (attributes : Json.Entries) :
    Open (ofLogicalType o attributes) := by
  unfold ofLogicalType
  split
  · rename_i l _
    have hopen : ∀ hints, ∀ e ∈ l.keywords hints, e.1 = Key.text "javaType" ∨ ¬e.1.IsToggled := by
      cases l <;> decide
    exact hopen _
  · simp [Open]

theorem open_withType (o : Options) (attributes : Json.Entries) (type : SchemaType) :
    Open (withType o attributes type) :=
  (open_ofLogicalType o attributes).setIfAbsent (.inr (by decide)) _

theorem open_apply (h : t.Open) (scalar : Scalar) (claimed : Bool) : Open (scalar.apply claimed t) := by
  have hbinary : Open (Scalar.apply.binary claimed t) := by
    unfold Scalar.apply.binary
    split
    · exact h
    · exact (h.set (.inr (by decide)) _).set (.inr (by decide)) _
  cases scalar with
  | fixed => exact hbinary
  | primitive p =>
    show Open (if _ then _ else _)
    split
    · exact hbinary
    · exact h.setIfAbsent (.inr (by decide)) _

theorem open_annotate (h : t.Open) (ha : Schema.ToggleFree attributes) :
    Open (annotate attributes t) := by
  refine Open.merge ?_ fun e he => .inr (ha e he)
  unfold describe
  split
  · exact h.set (.inr (by decide)) _
  · exact h

/-- The details of a logical type are the same but for the class. -/
theorem core_details (l : LogicalType) (hints : Bool) :
    core (l.details hints) = core (l.details false) := by
  cases hints with
  | false => rfl
  | true =>
    rw [LogicalType.details, LogicalType.details, core_append, core_append]
    rfl

theorem alike_ofLogicalType (o₁ o₂ : Options) (attributes : Json.Entries) :
    Alike (ofLogicalType o₁ attributes) (ofLogicalType o₂ attributes) := by
  refine ⟨(open_ofLogicalType o₁ attributes).erasable, (open_ofLogicalType o₂ attributes).erasable, ?_⟩
  unfold ofLogicalType
  split
  · rw [LogicalType.keywords, LogicalType.keywords, core_cons, core_cons, core_details,
      core_details _ o₂.javaTypeHints]
  · rfl

theorem alike_withType (o₁ o₂ : Options) (attributes : Json.Entries) (type : SchemaType) :
    Alike (withType o₁ attributes type) (withType o₂ attributes type) :=
  (alike_ofLogicalType o₁ o₂ attributes).setIfAbsent (by decide) _

theorem alike_apply (h : t.Alike u) (scalar : Scalar) (claimed : Bool) :
    Alike (scalar.apply claimed t) (scalar.apply claimed u) := by
  have hbinary : Alike (Scalar.apply.binary claimed t) (Scalar.apply.binary claimed u) := by
    unfold Scalar.apply.binary
    split
    · exact h
    · exact (h.set (by decide) rfl).set
        (by decide) rfl
  cases scalar with
  | fixed => exact hbinary
  | primitive p =>
    show Alike (if _ then _ else _) (if _ then _ else _)
    split
    · exact hbinary
    · exact h.setIfAbsent (by decide) _

theorem alike_describe (h : t.Alike u) (attributes : Json.Entries) :
    Alike (describe attributes t) (describe attributes u) := by
  unfold describe
  split
  · exact h.set (by decide) rfl
  · exact h

theorem alike_annotate (h : t.Alike u) (ha : Schema.ToggleFree attributes) :
    Alike (annotate attributes t) (annotate attributes u) :=
  (alike_describe h attributes).merge ha

theorem alike_decorate (h : t.Alike u) (field : Json.Entries) :
    Alike (decorate field t) (decorate field u) := by
  have hdescribed := alike_describe h field
  have hdefault : ¬(Key.text "default").IsToggled := by decide
  unfold decorate
  dsimp only
  split
  · refine Alike.set ?_ hdefault rfl
    refine ⟨hdescribed.left.erase (by decide) (by decide),
      hdescribed.right.erase (by decide) (by decide), ?_⟩
    rw [core_erase hdefault, core_erase hdefault, hdescribed.core]
  · exact hdescribed

theorem open_nullableScalar (o : Options) (member : Json) (p : Primitive) :
    Open (nullableScalar o member p) := by
  intro e he
  obtain ⟨name, hn, hk⟩ := decided_nullableScalar o member p e he
  rw [hk]
  have hdecided : ∀ name ∈ decided,
      Key.text name = Key.text "javaType" ∨ ¬(Key.text name).IsToggled := by decide
  exact hdecided name hn

theorem alike_nullableScalar (o₁ o₂ : Options) (member : Json) (p : Primitive) :
    Alike (nullableScalar o₁ member p) (nullableScalar o₂ member p) := by
  refine ⟨(open_nullableScalar o₁ member p).erasable, (open_nullableScalar o₂ member p).erasable, ?_⟩
  unfold nullableScalar
  dsimp only
  split
  · rw [core_cons, core_cons, core_details, core_details _ o₂.javaTypeHints]
  · rfl

theorem alike_oneOf {branches₁ branches₂ : List Json}
    (h : branches₁.map (untoggled .schema) = branches₂.map (untoggled .schema)) :
    Alike (oneOf branches₁) (oneOf branches₂) := by
  have hfree : ∀ branches, ∀ e ∈ oneOf branches, ¬e.1.IsToggled := by
    intro branches e he
    rw [List.mem_singleton.1 he]
    exact (by decide : ¬(Key.text "oneOf").IsToggled)
  have hopen : ∀ branches, Open (oneOf branches) := fun branches e he => .inr (hfree branches e he)
  have hentry : untoggledEntry (Key.text "oneOf", .arr branches₁) =
      untoggledEntry (Key.text "oneOf", .arr branches₂) := by
    show (_, untoggled .list _) = (_, untoggled .list _)
    rw [untoggled_list, untoggled_list, h]
  refine ⟨(hopen _).erasable, (hopen _).erasable, ?_⟩
  rw [core_of_free (hfree _), core_of_free (hfree _)]
  exact congrArg (fun e => [e]) hentry

/-- What is left of the frame of a record is what stands before the required names, and these if
there are any. -/
theorem core_recordFrame (o : Options) (name : Text) (attributes properties : Json.Entries)
    (required : List Json) :
    core (recordFrame o name attributes properties required) =
      core (((withType o attributes .object).put "title" (.str (Name.localOf name))).put "properties"
        (.obj properties)) ++ core [(Key.text "required", .arr required)] := by
  unfold recordFrame
  dsimp only
  generalize hbase : ((withType o attributes .object).put "title" (.str (Name.localOf name))).put
    "properties" (.obj properties) = base
  have hopen : Open base := by
    rw [← hbase]
    exact ((open_withType o attributes .object).set (.inr (by decide)) _).set (.inr (by decide)) _
  have hrequired := core_set_of_new (Key.sharp_text "required")
    (hopen.not_mem_keys (by decide) (by decide)) (.arr required)
  -- a closed record says so at the end, where it is erased
  have hclose : ∀ t : Json.Entries, Key.text "additionalProperties" ∉ keys t →
      core (if o.additionalPropertiesFalse then t.put "additionalProperties" (.bool false) else t) =
        core t := by
    intro t ht
    split
    · rw [put, core_set_of_new (Key.sharp_text _) ht]
      exact List.append_nil _
    · rfl
  have hnew : Key.text "additionalProperties" ∉ keys base :=
    hopen.not_mem_keys (by decide) (by decide)
  cases homit : o.omitEmptyRequired && required.isEmpty with
  | true =>
    have hnil : required = [] := by
      rw [Bool.and_eq_true] at homit
      exact List.isEmpty_iff.1 homit.2
    rw [if_pos rfl, hclose base hnew, hnil]
    exact (List.append_nil _).symm
  | false =>
    have hnew' : Key.text "additionalProperties" ∉ keys (base.put "required" (.arr required)) := by
      rw [put, ← get?_eq_none_iff (Key.sharp_text _), get?_set_of_ne (Key.sharp_text _) (by decide),
        get?_eq_none_iff (Key.sharp_text _)]
      exact hnew
    rw [if_neg Bool.false_ne_true, hclose _ hnew']
    exact hrequired

theorem isRecordNode_recordFrame (o : Options) (name : Text) (attributes properties : Json.Entries)
    (required : List Json) :
    Entries.isRecordNode (recordFrame o name attributes properties required) = true := by
  have hbase : Entries.isRecordNode (((withType o attributes .object).put "title"
      (.str (Name.localOf name))).put "properties" (.obj properties)) = true := by
    rw [isRecordNode, Bool.and_eq_true]
    refine ⟨has_set_of_has ?_ _ _, ?_⟩ <;>
      · rw [put, has, get?_set_self (Key.sharp_text _)]
        rfl
  unfold recordFrame
  dsimp only
  split <;> split
  · exact isRecordNode_set hbase _ _
  · exact isRecordNode_set (isRecordNode_set hbase _ _) _ _
  · exact hbase
  · exact isRecordNode_set hbase _ _

/-- A record is written the same under other switches, but for what closes it and an empty list. -/
theorem alike_recordFrame (o₁ o₂ : Options) (name : Text) (attributes : Json.Entries)
    {properties₁ properties₂ : Json.Entries} (required : List Json)
    (h : mapValues (untoggled .schema) properties₁ = mapValues (untoggled .schema) properties₂) :
    Alike (recordFrame o₁ name attributes properties₁ required)
      (recordFrame o₂ name attributes properties₂ required) := by
  refine ⟨.inl (isRecordNode_recordFrame _ _ _ _ _), .inl (isRecordNode_recordFrame _ _ _ _ _), ?_⟩
  have hproperties : untoggledEntry (Key.text "properties", .obj properties₁) =
      untoggledEntry (Key.text "properties", .obj properties₂) := by
    show (_, untoggled .table _) = (_, untoggled .table _)
    rw [untoggled_table, untoggled_table, h]
  have htitle : ¬(Key.text "title").IsToggled := by decide
  have hname : untoggledEntry (Key.text "title", .str (Name.localOf name)) =
      untoggledEntry (Key.text "title", .str (Name.localOf name)) := rfl
  have hbase := ((alike_withType o₁ o₂ attributes .object).set htitle hname).set (by decide)
    hproperties
  rw [core_recordFrame, core_recordFrame]
  exact congrArg (· ++ _) hbase.core

end Keywords

namespace Conversion

open Keywords

variable {o₁ o₂ : Options} {attributes t u : Json.Entries}

theorem alike_arrayKeywords (h : t.Alike u) (ha : Schema.ToggleFree attributes) :
    Alike (arrayKeywords o₁ attributes t) (arrayKeywords o₂ attributes u) := by
  refine alike_annotate ((alike_withType o₁ o₂ attributes .array).set (by decide) ?_) ha
  exact congrArg (Prod.mk _) h.untoggled

theorem alike_mapKeywords (h : t.Alike u) (ha : Schema.ToggleFree attributes) :
    Alike (mapKeywords o₁ attributes t) (mapKeywords o₂ attributes u) := by
  have htype := alike_withType o₁ o₂ attributes .object
  have hnew : ∀ o : Options,
      Key.text "additionalProperties" ∉ keys (withType o attributes .object) :=
    fun o => (open_withType o attributes .object).not_mem_keys (by decide) (by decide)
  have hentry : core [(Key.text "additionalProperties", .obj t)] =
      core [(Key.text "additionalProperties", .obj u)] := by
    rw [core_cons, core_cons]
    exact congrArg (fun j => [(Key.text "additionalProperties", j)]) h.untoggled
  refine alike_annotate ⟨htype.left.set (.inr rfl), htype.right.set (.inr rfl), ?_⟩ ha
  rw [put, put, core_set_of_new (Key.sharp_text _) (hnew o₁),
    core_set_of_new (Key.sharp_text _) (hnew o₂), htype.core, hentry]

theorem alike_referenceKeywords (h : t.Alike u) (ht : t.Open) (hu : u.Open)
    (ha : Schema.ToggleFree attributes) :
    Alike (referenceKeywords o₁ attributes t) (referenceKeywords o₂ attributes u) := by
  have hopen₁ := (open_ofLogicalType o₁ attributes).mergeAbsent ht
  have hopen₂ := (open_ofLogicalType o₂ attributes).mergeAbsent hu
  refine alike_annotate ⟨hopen₁.erasable, hopen₂.erasable, ?_⟩ ha
  rw [core_mergeAbsent ht, core_mergeAbsent hu, (alike_ofLogicalType o₁ o₂ attributes).core, h.core]

end Conversion

/-! ### Outlines under other switches -/

namespace Outline

open Keywords Conversion Schema

variable {o₁ o₂ : Options} {schema : Json}

theorem Flat.open_write (free : ∀ attributes, Below (.obj attributes) schema → ToggleFree attributes)
    {flat : Flat} (h : flat.MadeFrom schema) (o : Options) : Open (flat.write o) := by
  cases h with
  | name p =>
    exact open_annotate (open_apply (open_ofLogicalType o []) _ _) (by simp [ToggleFree, customProperties])
  | scalar s hb => exact open_annotate (open_apply (open_ofLogicalType o _) _ _) (free _ hb)
  | enum hb _ =>
    exact open_annotate ((open_withType o _ .string).set (.inr (by decide)) _) (free _ hb)
  | reference qualified =>
    intro e he
    rw [List.mem_singleton.1 he]
    exact .inr (show ¬(Key.text "$ref").IsToggled by decide)

theorem Flat.alike_write (free : ∀ attributes, Below (.obj attributes) schema → ToggleFree attributes)
    (hdraft : o₁.draft = o₂.draft) {flat : Flat} (h : flat.MadeFrom schema) :
    Alike (flat.write o₁) (flat.write o₂) := by
  have hscalar := fun (attributes : Json.Entries) (s : Scalar) =>
    alike_apply (alike_ofLogicalType o₁ o₂ attributes) s (logicalType? attributes).isSome
  cases h with
  | name p => exact alike_annotate (hscalar [] _) (by simp [ToggleFree, customProperties])
  | scalar s hb => exact alike_annotate (hscalar _ s) (free _ hb)
  | enum hb _ =>
    exact alike_annotate ((alike_withType o₁ o₂ _ .string).set (by decide) rfl) (free _ hb)
  | reference qualified =>
    have hopen := Flat.open_write free (.reference qualified)
    refine ⟨(hopen o₁).erasable, (hopen o₂).erasable, ?_⟩
    rw [write, write, hdraft]

theorem alike_writeBranches {branches : List Outline}
    (ih : ∀ branch ∈ branches, Alike (branch.write o₁) (branch.write o₂)) :
    (writeBranches o₁ branches).map (untoggled .schema) =
      (writeBranches o₂ branches).map (untoggled .schema) := by
  induction branches with
  | nil => rw [writeBranches, writeBranches]
  | cons branch branches hrest =>
    obtain ⟨hbranch, hbranches⟩ := List.forall_mem_cons.1 ih
    rw [writeBranches, writeBranches, List.map_cons, List.map_cons, hbranch.untoggled,
      hrest hbranches]

theorem alike_writeFields {fields : List (Field × Outline)}
    (ih : ∀ field ∈ fields, Alike (field.2.write o₁) (field.2.write o₂))
    {properties₁ properties₂ : Json.Entries}
    (h : mapValues (untoggled .schema) properties₁ = mapValues (untoggled .schema) properties₂) :
    mapValues (untoggled .schema) (writeFields o₁ fields properties₁) =
      mapValues (untoggled .schema) (writeFields o₂ fields properties₂) := by
  induction fields generalizing properties₁ properties₂ with
  | nil => rwa [writeFields, writeFields]
  | cons field fields hrest =>
    obtain ⟨hfield, hfields⟩ := List.forall_mem_cons.1 ih
    rw [writeFields, writeFields]
    refine hrest hfields ?_
    rw [mapValues_set, mapValues_set, h, (alike_decorate hfield _).untoggled]

/-- **The switches are local to what they govern**: without it, an outline is written the same under
any switches. -/
theorem alike_write (free : ∀ attributes, Below (.obj attributes) schema → ToggleFree attributes)
    (hdraft : o₁.draft = o₂.draft) {outline : Outline} (h : outline.MadeFrom schema) :
    Alike (outline.write o₁) (outline.write o₂) := by
  induction h with
  | flat hf =>
    rw [write, write]
    exact Flat.alike_write free hdraft hf
  | annotated hb ht =>
    rw [write, write]
    exact alike_referenceKeywords (Flat.alike_write free hdraft ht) (Flat.open_write free ht o₁)
      (Flat.open_write free ht o₂) (free _ hb)
  | nullable member _ =>
    rw [write, write]
    exact alike_nullableScalar o₁ o₂ member _
  | array hb _ ih =>
    rw [write, write]
    exact alike_arrayKeywords ih (free _ hb)
  | map hb _ ih =>
    rw [write, write]
    exact alike_mapKeywords ih (free _ hb)
  | record qualified hb _ _ _ _ ih =>
    rw [write, write]
    exact alike_annotate (alike_recordFrame o₁ o₂ _ _ _ (alike_writeFields ih rfl)) (free _ hb)
  | choice _ _ ih =>
    rw [write, write]
    exact alike_oneOf (alike_writeBranches ih)

/-! ### Keywords stand once -/

section Once

variable (name : Text) (o : Options) (attributes : Json.Entries)

theorem once_ofLogicalType : Once (Key.text name) (ofLogicalType o attributes) := by
  unfold ofLogicalType
  split
  · rename_i l _
    have hnodup : ∀ hints, (keys (l.keywords hints)).Nodup := by
      cases l <;> decide
    exact once_of_nodup (hnodup _)
  · trivial

theorem once_withType (type : SchemaType) : Once (Key.text name) (withType o attributes type) :=
  (once_ofLogicalType name o attributes).setIfAbsent (Key.sharp_text name) _ _

theorem once_annotate {t : Json.Entries} (h : Once (Key.text name) t) :
    Once (Key.text name) (annotate attributes t) := by
  refine Once.merge (Key.sharp_text name) ?_ _
  unfold describe
  split
  · exact h.set (Key.sharp_text name) _ _
  · exact h

theorem once_ofScalar (scalar : Scalar) : Once (Key.text name) (ofScalar o attributes scalar) := by
  have hsharp := Key.sharp_text name
  have hlogical := once_ofLogicalType name o attributes
  have hbinary : ∀ claimed,
      Once (Key.text name) (Scalar.apply.binary claimed (ofLogicalType o attributes)) := by
    intro claimed
    unfold Scalar.apply.binary
    split
    · exact hlogical
    · exact (hlogical.set hsharp _ _).set hsharp _ _
  unfold ofScalar
  cases scalar with
  | fixed => exact hbinary _
  | primitive p =>
    show Once (Key.text name) (if _ then _ else _)
    split
    · exact hbinary _
    · exact hlogical.setIfAbsent hsharp _ _

theorem once_recordFrame (record : Text) (properties : Json.Entries) (required : List Json) :
    Once (Key.text name) (recordFrame o record attributes properties required) := by
  have hsharp := Key.sharp_text name
  have hbase := ((once_withType name o attributes .object).set hsharp (.text "title")
    (.str (Name.localOf record))).set hsharp (.text "properties") (.obj properties)
  unfold recordFrame
  dsimp only
  split <;> split
  · exact hbase.set hsharp _ _
  · exact (hbase.set hsharp _ _).set hsharp _ _
  · exact hbase
  · exact hbase.set hsharp _ _

theorem once_nullableScalar (member : Json) (p : Primitive) :
    Once (Key.text name) (nullableScalar o member p) := by
  unfold nullableScalar
  dsimp only
  split
  · rename_i l _
    have hnodup : ∀ hints, (keys ((Key.text "type", nullableScalar.typePair l.schemaType)
        :: l.details hints)).Nodup := by
      cases l <;> decide
    exact once_of_nodup (hnodup _)
  · exact once_singleton _ _

/-- A keyword is written at most once. -/
theorem once_write (outline : Outline) : Once (Key.text name) (outline.write o) := by
  have hsharp := Key.sharp_text name
  cases outline with
  | flat f =>
    rw [write]
    cases f with
    | scalar s attributes => exact once_annotate name attributes (once_ofScalar name o attributes s)
    | enum symbols attributes =>
      exact once_annotate name attributes ((once_withType name o attributes .string).set hsharp _ _)
    | reference qualified => exact once_singleton _ _
  | annotated attributes target =>
    rw [write]
    exact once_annotate name attributes ((once_ofLogicalType name o attributes).mergeAbsent hsharp _)
  | nullable member p =>
    rw [write]
    exact once_nullableScalar name o member p
  | array attributes items =>
    rw [write]
    exact once_annotate name attributes ((once_withType name o attributes .array).set hsharp _ _)
  | map attributes values =>
    rw [write]
    exact once_annotate name attributes ((once_withType name o attributes .object).set hsharp _ _)
  | record qualified attributes fields =>
    rw [write]
    exact once_annotate name attributes (once_recordFrame name o attributes _ _ _)
  | choice branches =>
    rw [write]
    exact once_singleton _ _

end Once

end Outline

namespace Document

open Outline Schema

variable {o₁ o₂ : Options} {schema : Json}

/-- The definitions of a context with each schema without what the switches govern. -/
def untoggledDefinitions (c : Context) : Table Text Json :=
  mapValues (fun keywords => untoggled .schema (.obj keywords)) c.definitions

theorem header_free (draft : Draft) (c : Context) : ∀ e ∈ header draft c, ¬e.1.IsToggled := by
  intro e he
  have hkeyword : ¬(Key.text draft.definitionsKeyword).IsToggled := by cases draft <;> decide
  rcases List.mem_cons.1 he with rfl | he
  · exact (by decide : ¬(Key.text "$schema").IsToggled)
  · split at he
    · cases he
    · rw [List.mem_singleton.1 he]
      exact hkeyword

theorem core_header (draft : Draft) {c₁ c₂ : Context}
    (h : untoggledDefinitions c₁ = untoggledDefinitions c₂) :
    core (header draft c₁) = core (header draft c₂) := by
  have hempty : c₁.definitions.isEmpty = c₂.definitions.isEmpty := by
    have hlength := congrArg List.length h
    simp only [untoggledDefinitions, mapValues, List.length_map] at hlength
    rw [Bool.eq_iff_iff, List.isEmpty_iff_length_eq_zero, List.isEmpty_iff_length_eq_zero, hlength]
  have htable : ∀ c : Context, untoggled .table (definitionsTable c) =
      .obj ((untoggledDefinitions c).map fun e => (Key.text e.1, e.2)) := by
    intro c
    rw [definitionsTable, untoggled_table, untoggledDefinitions]
    simp only [mapValues, List.map_map, Function.comp_def]
  have hentry : untoggledEntry (Key.text draft.definitionsKeyword, definitionsTable c₁) =
      untoggledEntry (Key.text draft.definitionsKeyword, definitionsTable c₂) := by
    have hunder : Place.schema.under (Key.text draft.definitionsKeyword) = .table := by
      cases draft <;> decide
    rw [untoggledEntry, untoggledEntry, hunder, htable, htable, h]
  rw [core_of_free (header_free draft c₁), core_of_free (header_free draft c₂), header, header, hempty]
  split
  · rfl
  · simp only [List.map_cons, hentry]

/-- A header before erasable keywords leaves them erasable. -/
theorem erasable_merge {t u : Json.Entries} (ht : ∀ e ∈ t, ¬e.1.IsToggled) (hu : u.Erasable)
    (honce : ∀ name, Once (Key.text name) u) : Entries.Erasable (t.merge u) := by
  have hhas : ∀ name : Text, has (Key.text name) u = true →
      has (Key.text name) (t.merge u) = true := by
    intro name h
    rw [has, (honce name).get?_merge (Key.sharp_text name), Option.isSome_or, ← has, h, Bool.true_or]
  refine hu.imp (fun h => ?_) fun h => ?_
  · rw [isRecordNode, Bool.and_eq_true] at h ⊢
    exact ⟨hhas _ h.1, hhas _ h.2⟩
  · have hclosed : ∀ e ∈ t, closes e = false := by
      intro e he
      rw [← Bool.not_eq_true]
      exact fun hc => ht e he (isToggled_of_closes hc)
    clear honce hhas hu ht
    induction u generalizing t with
    | nil => exact hclosed
    | cons e u ih =>
      obtain ⟨he, hrest⟩ := List.forall_mem_cons.1 h
      exact ih hrest (closes_set hclosed (.inr he))

/-- **What the switches govern is local.**  If no object has a custom property under a keyword that a
switch decides about, two documents under one draft and one way to flatten unions are the same, key by
key, once those keywords are erased at every schema of them; and a schema that is refused under the
ones is refused with the same fault under the others. -/
theorem toggles_local (o₁ o₂ : Options) (schema : Json)
    (hflatten : o₁.flattenNullableUnions = o₂.flattenNullableUnions) (hdraft : o₁.draft = o₂.draft)
    (free : ∀ attributes, Below (.obj attributes) schema → ToggleFree attributes) :
    (ofSchema o₁ schema).map (untoggled .schema) = (ofSchema o₂ schema).map (untoggled .schema) := by
  rw [ofSchema_eq_written, ofSchema_eq_written, ← hflatten]
  generalize hledger : (Outline.ofSchema o₁.flattenNullableUnions schema).2 = ledger
  cases hresult : (Outline.ofSchema o₁.flattenNullableUnions schema).1 with
  | error fault => rfl
  | ok outline =>
    obtain ⟨hroot, hfinished⟩ := madeFrom_ofSchema hresult
    rw [hledger] at hfinished
    have halike : Alike (outline.write o₁) (outline.write o₂) := alike_write free hdraft hroot
    have hwritten : mapValues (fun keywords => untoggled .schema (.obj keywords))
          (ledger.definitions o₁) =
        mapValues (fun keywords => untoggled .schema (.obj keywords)) (ledger.definitions o₂) := by
      simp only [mapValues, Ledger.definitions, List.map_map, Function.comp_def]
      refine List.map_congr_left fun e he => ?_
      rw [(alike_write free hdraft (hfinished e he)).untoggled]
    have hdefinitions : untoggledDefinitions (ledger.written o₁ []) =
        untoggledDefinitions (ledger.written o₂ []) := by
      simp only [untoggledDefinitions, Ledger.written, mapValues_merge, hwritten]
    have hnew : ∀ (o : Options) (c : Context), ∀ name ∈ toggledKeywords,
        Key.text name ∈ keys (outline.write o) → Key.text name ∉ keys (header o.draft c) := by
      intro o c name hn _ hk
      obtain ⟨e, he, heq⟩ := List.mem_map.1 hk
      exact header_free o.draft c e he ⟨name, hn, heq⟩
    have honce : ∀ (o : Options) (name : Text), Once (Key.text name) (outline.write o) :=
      fun o name => once_write name o outline
    have hdocument : ∀ {o : Options}, (outline.write o).Erasable →
        untoggled .schema (outline.document o ledger) =
          .obj ((core (header o.draft (ledger.written o []))).merge (core (outline.write o))) := by
      intro o herasable
      rw [document, untoggled_of_erasable (erasable_merge (header_free _ _) herasable (honce o)),
        core_merge_of_new (fun name _ => honce o name) (hnew o _)]
    show Except.ok (untoggled .schema (outline.document o₁ ledger)) =
      Except.ok (untoggled .schema (outline.document o₂ ledger))
    rw [hdocument halike.left, hdocument halike.right, halike.core, ← hdraft,
      core_header o₁.draft hdefinitions]

/-- A moment, with a unit of its own. -/
def stamp : Json.Entries :=
  [(.text "type", "long"), (.text "logicalType", "timestamp-millis"), (.text "unit", "ms")]

/-- A visit, of which the moment may be unknown. -/
def visit : Json :=
  .obj [(.text "type", "record"), (.text "name", "Visit"), (.text "fields", .arr [
    .obj [(.text "name", "at"), (.text "type", .arr ["null", .obj stamp])]])]

/-- Unions as they are, and every other switch on. -/
def unflattened : Options :=
  { Options.pojoOptimized with flattenNullableUnions := false }

/-- The nodes of a visit. -/
theorem below_visit {j : Json} (h : Below j visit) :
    j = visit ∨ j = .arr ["null", .obj stamp] ∨ j = .str "null" ∨ j = .obj stamp := by
  have hs : ∃ es, visit = .obj es ∧ shape visit = .record "Visit" es := ⟨_, rfl, rfl⟩
  obtain ⟨es, hes, hs⟩ := hs
  rcases below_record hs h with hself | ⟨list, field, i, hl, hf, ht, hb⟩
  · exact .inl hself
  · cases hes
    cases hl
    cases List.mem_singleton.1 hf
    cases ht
    rcases below_arr hb with harr | ⟨member, hm, hb⟩
    · exact .inr (.inl harr)
    · simp only [List.mem_cons, List.not_mem_nil, or_false] at hm
      rcases hm with rfl | rfl
      · exact .inr (.inr (.inl (below_str hb)))
      · have hstamp : shape (.obj stamp) = .primitive .long stamp := rfl
        cases hb with
        | self => exact .inr (.inr (.inr rfl))
        | child hc _ => cases hc <;> simp_all

/-- The documents of a visit differ, but not once they are erased. -/
theorem toggles_local_visit :
    (ofSchema Options.strict visit).map Json.size = .ok 22
      ∧ (ofSchema unflattened visit).map Json.size = .ok 24
      ∧ (ofSchema Options.strict visit).map (untoggled .schema) =
        (ofSchema unflattened visit).map (untoggled .schema) := by
  have hfree : ∀ attributes, Below (.obj attributes) visit → ToggleFree attributes := by
    intro attributes h
    unfold ToggleFree
    rcases below_visit h with heq | heq | heq | heq <;> cases heq <;> decide
  exact ⟨by with_unfolding_all rfl, by with_unfolding_all rfl,
    toggles_local .strict unflattened visit rfl rfl hfree⟩

end Document

end AvroJsonSchema
