import AvroJsonSchema.Proofs.Legibility
import AvroJsonSchema.Proofs.Provenance

/-!
# Legible schemas and what is written of them

What a conversion writes stands in the schema or is made from texts that stand in it: a full name is
a namespace, a dot and a name, a title is what follows the last dot of a full name, and a reference is
a full name behind an address.  The dot keeps the two parts apart, so no surrogate of one is joined
with one of the other.  So all that is written of a legible schema is legible, if the names of the
fields are texts.

* **`Outline.Legible`**: an outline carries nothing but what is legible.
* **`Outline.legible_write`**: what is written of it is legible.
* **`Schema.NamesFieldsByTexts`**: the names of the fields of all records are texts.
* **`Outlining.legible_node`**: the outline of a legible node is legible.
-/

namespace AvroJsonSchema

open Table Json

/-! ### Names -/

namespace Name

theorem pairless_join {space name : Text} (hs : space.Pairless) (hn : name.Pairless) :
    (join space name).Pairless := by
  unfold join
  split
  · exact hn
  · exact hs.join hn (by decide)

theorem pairless_namespaceOf {t : Text} (h : t.Pairless) : (namespaceOf t).Pairless := by
  have hsuffix : (t.reverse.dropWhile (· ≠ Text.dot)).tail <:+ t.reverse :=
    (List.tail_suffix _).trans (List.dropWhile_suffix _)
  have hprefix : namespaceOf t <+: t := by
    rw [← List.reverse_suffix, namespaceOf, List.reverse_reverse]
    exact hsuffix
  exact h.of_infix hprefix.isInfix

theorem pairless_localOf {t : Text} (h : t.Pairless) : (localOf t).Pairless := by
  have hsuffix : localOf t <:+ t := by
    rw [← List.reverse_prefix, localOf, List.reverse_reverse]
    exact List.takeWhile_prefix _
  exact h.of_infix hsuffix.isInfix

theorem pairless_ofNamed {name enclosing qualified : Text} {attributes : Json.Entries}
    (hname : name.Pairless) (hattributes : attributes.Legible) (henclosing : enclosing.Pairless)
    (h : ofNamed name attributes enclosing = .ok qualified) : qualified.Pairless := by
  unfold ofNamed at h
  split at h
  · cases h
    exact hname
  · cases hspace : statedNamespace attributes enclosing with
    | error fault =>
      rw [hspace] at h
      cases h
    | ok space =>
      rw [hspace] at h
      cases h
      refine pairless_join ?_ hname
      unfold statedNamespace at hspace
      split at hspace
      · cases hspace
        exact henclosing
      · rename_i t ht
        cases hspace
        cases hattributes.attr ht with
        | str hpairless => exact hpairless
      · split at hspace
        · cases hspace
        · cases hspace
          exact Text.pairless_nil

end Name

/-! ### Keywords -/

namespace Json

/-- A text without surrogates is legible, as a key and as a value. -/
theorem Key.legible_of_scalar {t : Text} (h : t.IsScalar) : (Key.text t).Legible :=
  ⟨t, rfl, h.pairless⟩

theorem legible_of_scalar {t : Text} (h : t.IsScalar) : (Json.str t).Legible :=
  .str h.pairless

namespace Entries.Legible

variable {t : Entries} {name : Text} {v : Json}

theorem put (h : t.Legible) (hn : name.IsScalar) (hv : v.Legible) : (t.put name v).Legible :=
  h.set (Key.legible_of_scalar hn) hv

theorem putIfAbsent (h : t.Legible) (hn : name.IsScalar) (hv : v.Legible) :
    (t.putIfAbsent name v).Legible :=
  h.setIfAbsent (Key.legible_of_scalar hn) hv

end Entries.Legible

end Json

theorem SchemaType.legible (type : SchemaType) : (Json.str type.text).Legible :=
  legible_of_scalar (by cases type <;> decide)

namespace LogicalType

theorem legible_details (l : LogicalType) (hints : Bool) : ∀ e ∈ l.details hints, EntryLegible e := by
  intro e he
  rcases List.mem_append.1 he with he | he
  · split at he
    · rename_i format hformat
      rw [List.mem_singleton.1 he]
      have hscalar : format.IsScalar := by
        cases l <;> cases hformat <;> decide
      exact ⟨Key.legible_of_scalar (by decide), legible_of_scalar hscalar⟩
    · cases he
  · split at he
    · rw [List.mem_singleton.1 he]
      exact ⟨Key.legible_of_scalar (by decide), legible_of_scalar (by cases l <;> decide)⟩
    · cases he

/-- The keywords of a logical type under a legible type of values. -/
theorem legible_typed (l : LogicalType) (hints : Bool) {type : Json} (h : type.Legible) :
    Entries.Legible ((.text "type", type) :: l.details hints) := by
  -- the keys are the same under every type
  have hkeys : (keys ((Key.text "type", Json.null) :: l.details hints)).Nodup := by
    cases l <;> cases hints <;> decide
  exact .of_entries (fun name => once_of_nodup hkeys)
    (List.forall_mem_cons.2 ⟨⟨Key.legible_of_scalar (by decide), h⟩, l.legible_details hints⟩)

end LogicalType

namespace Keywords

variable {o : Options} {attributes t : Json.Entries}

theorem legible_ofLogicalType (o : Options) (attributes : Json.Entries) :
    (ofLogicalType o attributes).Legible := by
  unfold ofLogicalType
  split
  · exact LogicalType.legible_typed _ _ (SchemaType.legible _)
  · exact .empty

theorem legible_withType (o : Options) (attributes : Json.Entries) (type : SchemaType) :
    (withType o attributes type).Legible :=
  (legible_ofLogicalType o attributes).putIfAbsent (by decide) type.legible

theorem legible_ofScalar (o : Options) (attributes : Json.Entries) (scalar : Scalar) :
    (ofScalar o attributes scalar).Legible := by
  have hlogical := legible_ofLogicalType o attributes
  have hbinary : ∀ claimed,
      (Scalar.apply.binary claimed (ofLogicalType o attributes)).Legible := by
    intro claimed
    unfold Scalar.apply.binary
    split
    · exact hlogical
    · exact (hlogical.put (by decide) (legible_of_scalar (by decide))).put (by decide)
        (legible_of_scalar (by decide))
  unfold ofScalar
  cases scalar with
  | fixed => exact hbinary _
  | primitive p =>
    show Entries.Legible (if _ then _ else _)
    split
    · exact hbinary _
    · exact hlogical.putIfAbsent (by decide) p.schemaType.legible

theorem legible_describe (ha : attributes.Legible) (h : t.Legible) :
    (describe attributes t).Legible := by
  unfold describe
  split
  · rename_i doc hdoc
    exact h.put (by decide) (ha.attr hdoc)
  · exact h

theorem legible_annotate (ha : attributes.Legible) (h : t.Legible) :
    (annotate attributes t).Legible :=
  (legible_describe ha h).merge fun e he => ha.entry e (List.mem_of_mem_filter he)

theorem legible_decorate {field : Json.Entries} (hf : field.Legible) (h : t.Legible) :
    (decorate field t).Legible := by
  unfold decorate
  dsimp only
  split
  · rename_i value hvalue
    exact ((legible_describe hf h).erase _).put (by decide) (hf.attr hvalue)
  · exact legible_describe hf h

theorem legible_reference (draft : Draft) {name : Text} (h : name.Pairless) :
    (reference draft name).Legible := by
  have hroot : draft.referenceRoot.IsScalar := by
    cases draft <;> decide
  exact .singleton (Key.legible_of_scalar (by decide)) (.str (hroot.append_pairless h))

theorem legible_oneOf {branches : List Json} (h : ∀ j ∈ branches, j.Legible) :
    (oneOf branches).Legible :=
  .singleton (Key.legible_of_scalar (by decide)) (.arr h)

theorem legible_nullableScalar (o : Options) (member : Json) (p : Primitive) :
    (nullableScalar o member p).Legible := by
  have hpair : ∀ type : SchemaType, (nullableScalar.typePair type).Legible := fun type =>
    .arr (List.forall_mem_cons.2
      ⟨legible_of_scalar (by decide), List.forall_mem_singleton.2 type.legible⟩)
  unfold nullableScalar
  dsimp only
  split
  · exact LogicalType.legible_typed _ _ (hpair _)
  · exact .singleton (Key.legible_of_scalar (by decide)) (hpair _)

theorem legible_recordFrame (o : Options) (attributes : Json.Entries) {name : Text}
    {properties : Json.Entries} {required : List Json} (hname : name.Pairless)
    (hproperties : properties.Legible) (hrequired : ∀ j ∈ required, j.Legible) :
    (recordFrame o name attributes properties required).Legible := by
  have hbase : (((withType o attributes .object).put "title" (Name.localOf name)).put "properties"
      (.obj properties)).Legible :=
    ((legible_withType o attributes .object).put (by decide)
      (.str (Name.pairless_localOf hname))).put (by decide) hproperties
  have hlisted : ∀ base : Json.Entries, base.Legible → (base.put "required" (.arr required)).Legible :=
    fun base h => h.put (by decide) (.arr hrequired)
  unfold recordFrame
  dsimp only
  split <;> split
  · exact hbase.put (by decide) (.bool false)
  · exact (hlisted _ hbase).put (by decide) (.bool false)
  · exact hbase
  · exact hlisted _ hbase

end Keywords

/-! ### Outlines -/

namespace Outline

/-- What is written of a node below which nothing is written carries only what is legible. -/
inductive Flat.Legible : Flat → Prop
  | scalar (s : Scalar) {attributes : Json.Entries} : attributes.Legible → Legible (.scalar s attributes)
  | enum {symbols : List Json} {attributes : Json.Entries} :
      (∀ j ∈ symbols, j.Legible) → attributes.Legible → Legible (.enum symbols attributes)
  | reference {qualified : Text} : qualified.Pairless → Legible (.reference qualified)

/-- What is written of a field beside the schema of its type is legible. -/
structure Field.Legible (field : Field) : Prop where
  attributes : field.attributes.Legible
  name : field.name.Legible
  key : field.key.Legible

/-- An outline carries only what is legible. -/
inductive Legible : Outline → Prop
  | flat {f : Flat} : f.Legible → Legible (.flat f)
  | annotated {attributes : Json.Entries} {target : Flat} :
      attributes.Legible → target.Legible → Legible (.annotated attributes target)
  | nullable (member : Json) (p : Primitive) : Legible (.nullable member p)
  | array {attributes : Json.Entries} {items : Outline} :
      attributes.Legible → Legible items → Legible (.array attributes items)
  | map {attributes : Json.Entries} {values : Outline} :
      attributes.Legible → Legible values → Legible (.map attributes values)
  | record {qualified : Text} {attributes : Json.Entries} {fields : List (Field × Outline)} :
      qualified.Pairless → attributes.Legible → (∀ field ∈ fields, field.1.Legible) →
      (∀ field ∈ fields, Legible field.2) → Legible (.record qualified attributes fields)
  | choice {branches : List Outline} :
      (∀ branch ∈ branches, Legible branch) → Legible (.choice branches)

open Keywords Conversion

variable {o : Options}

theorem Flat.Legible.write {f : Flat} (h : f.Legible) : (f.write o).Legible := by
  cases h with
  | scalar s ha => exact legible_annotate ha (legible_ofScalar o _ s)
  | enum hsymbols ha =>
    exact legible_annotate ha ((legible_withType o _ .string).put (by decide) (.arr hsymbols))
  | reference hq => exact legible_reference o.draft hq

theorem legible_requiredNames {fields : List (Field × Outline)} (h : ∀ field ∈ fields, field.1.Legible) :
    ∀ j ∈ requiredNames fields, j.Legible := by
  induction fields with
  | nil => simp [requiredNames]
  | cons field fields ih =>
    obtain ⟨hfield, hfields⟩ := List.forall_mem_cons.1 h
    rw [requiredNames]
    split
    · exact ih hfields
    · exact List.forall_mem_cons.2 ⟨hfield.name, ih hfields⟩

theorem legible_writeFields {fields : List (Field × Outline)} {properties : Json.Entries}
    (h : ∀ field ∈ fields, field.1.Legible) (ih : ∀ field ∈ fields, (field.2.write o).Legible)
    (hproperties : properties.Legible) : (writeFields o fields properties).Legible := by
  induction fields generalizing properties with
  | nil => rwa [writeFields]
  | cons field fields hmore =>
    obtain ⟨hfield, hfields⟩ := List.forall_mem_cons.1 h
    obtain ⟨htype, htypes⟩ := List.forall_mem_cons.1 ih
    rw [writeFields]
    exact hmore hfields htypes
      (hproperties.set hfield.key (legible_decorate hfield.attributes htype))

theorem legible_writeBranches {branches : List Outline}
    (ih : ∀ branch ∈ branches, (branch.write o).Legible) :
    ∀ j ∈ writeBranches o branches, j.Legible := by
  induction branches with
  | nil => simp [writeBranches]
  | cons branch branches hmore =>
    obtain ⟨hbranch, hbranches⟩ := List.forall_mem_cons.1 ih
    rw [writeBranches]
    exact List.forall_mem_cons.2 ⟨hbranch, hmore hbranches⟩

/-- **What is written of a legible outline is legible.** -/
theorem legible_write {outline : Outline} (h : outline.Legible) : (outline.write o).Legible := by
  induction h with
  | flat hf =>
    rw [write]
    exact hf.write
  | annotated ha ht =>
    rw [write]
    exact legible_annotate ha ((legible_ofLogicalType o _).mergeAbsent
      (Entries.Legible.entry ht.write))
  | nullable member p =>
    rw [write]
    exact legible_nullableScalar o member p
  | array ha _ ih =>
    rw [write]
    exact legible_annotate ha ((legible_withType o _ .array).put (by decide) ih)
  | map ha _ ih =>
    rw [write]
    exact legible_annotate ha ((legible_withType o _ .object).put (by decide) ih)
  | record hq ha hfields _ ih =>
    rw [write]
    exact legible_annotate ha (legible_recordFrame o _ hq (legible_writeFields hfields ih .empty)
      (legible_requiredNames hfields))
  | choice _ ih =>
    rw [write]
    exact legible_oneOf (legible_writeBranches ih)

end Outline

/-! ### Legible schemas -/

namespace Schema

/-- The names of the fields of all records of a schema are texts. -/
def NamesFieldsByTexts (schema : Json) : Prop :=
  ∀ (attributes : Json.Entries) (list : List Json), Below (.obj attributes) schema →
    IsRecord attributes → attributes.attr? "fields" = some (.arr list) →
    ∀ field : Json.Entries, .obj field ∈ list → ∀ name, field.attr? "name" = some name →
      ∃ t, name = .str t

theorem NamesFieldsByTexts.child {schema j : Json} (h : NamesFieldsByTexts schema)
    (hj : Child j schema) : NamesFieldsByTexts j :=
  fun attributes list hb => h attributes list (.child hj hb)

theorem legible_of_mem {items : List Json} (h : (Json.arr items).Legible) {j : Json} (hj : j ∈ items) :
    j.Legible := by
  cases h with
  | arr hitems => exact hitems j hj

theorem pairless_of_legible {t : Text} (h : (Json.str t).Legible) : t.Pairless := by
  cases h with
  | str ht => exact ht

/-- The nodes directly below a legible node are legible. -/
theorem Child.legible {schema j : Json} (hj : Child j schema) (h : schema.Legible) : j.Legible := by
  cases hj with
  | member hs hm =>
    rw [eq_arr_of_shape hs] at h
    exact legible_of_mem h hm
  | inner hs =>
    obtain ⟨attributes, rfl, htype⟩ := fits_of_shape hs (by simp) (by simp) (by simp)
    exact Entries.Legible.attr h htype
  | items hs =>
    obtain ⟨attributes, rfl, -, hitems⟩ := fits_of_shape hs (by simp) (by simp) (by simp)
    exact Entries.Legible.attr h hitems
  | values hs =>
    obtain ⟨attributes, rfl, -, hvalues⟩ := fits_of_shape hs (by simp) (by simp) (by simp)
    exact Entries.Legible.attr h hvalues
  | field hs hl hf ht =>
    rw [eq_obj_of_record hs] at h
    exact Entries.Legible.attr (legible_of_mem (Entries.Legible.attr h hl) hf) ht

end Schema

/-! ### Outlining -/

/-- The named types and the finished records of a ledger are legible, and so are their names. -/
structure Ledger.Legible (ledger : Ledger) : Prop where
  named : ∀ e ∈ ledger.named, e.1.Pairless ∧ e.2.Legible
  finished : ∀ e ∈ ledger.finished, e.1.Pairless ∧ e.2.Legible

namespace Ledger.Legible

variable {ledger : Ledger} {q : Text} {attributes : Json.Entries}

theorem empty : Ledger.empty.Legible where
  named := by simp [Ledger.empty]
  finished := by simp [Ledger.empty]

theorem addNamed (h : ledger.Legible) (hq : q.Pairless) (ha : attributes.Legible) :
    (ledger.addNamed q attributes).Legible where
  named e he := by
    rcases mem_set_sharp (sharp_of_lawful q) he with he | rfl
    · exact h.named e he
    · exact ⟨hq, ha⟩
  finished := h.finished

theorem enter (h : ledger.Legible) (hq : q.Pairless) (ha : attributes.Legible) :
    (ledger.enter q attributes).Legible where
  named := (h.addNamed hq ha).named
  finished := h.finished

theorem finish (h : ledger.Legible) {outline : Outline} (hq : q.Pairless) (ho : outline.Legible) :
    (ledger.finish q outline).Legible where
  named := h.named
  finished e he := by
    rcases List.mem_append.1 he with he | he
    · exact h.finished e he
    · rw [List.mem_singleton.1 he]
      exact ⟨hq, ho⟩

end Ledger.Legible

namespace Outlining

open Outline Schema Conversion Name

variable {flatten : Bool} {enclosing : Text}

theorem legible_ofLeaf {kind : Leaf} {qualified : Text} {attributes : Json.Entries} {flat : Flat}
    (ha : attributes.Legible) (h : Flat.ofLeaf kind qualified attributes = .ok flat) :
    flat.Legible := by
  rcases Flat.ofLeaf_ok h with rfl | ⟨items, hitems, -, rfl⟩
  · exact .scalar .fixed ha
  · exact .enum (fun j hj => legible_of_mem (ha.attr hitems) hj) ha

theorem legible_leaf {kind : Leaf} {name : Text} {attributes : Json.Entries}
    (hname : name.Pairless) (ha : attributes.Legible) (henclosing : enclosing.Pairless) :
    Keeps Ledger.Legible (leaf kind name attributes enclosing) Flat.Legible :=
  keeps_leaf (fun _ _ hq hl => hl.addNamed (pairless_ofNamed hname ha henclosing hq) ha)
    fun _ _ _ hf => legible_ofLeaf ha hf

theorem legible_typeName (name : Text) :
    Keeps Ledger.Legible (typeName name enclosing) Flat.Legible := by
  have hnamed : ∀ {ledger : Ledger} {qualified : Text} {attributes : Json.Entries}, ledger.Legible →
      ledger.named.get? qualified = some attributes → qualified.Pairless ∧ attributes.Legible :=
    fun hl ha => hl.named _ (mem_of_get?_eq_some (sharp_of_lawful _) ha)
  refine keeps_typeName (fun p => .scalar _ .empty) (fun qualified ledger hl hresolve => ?_) ?_
  · -- a name means a named type, whose full name is one of the ledger
    obtain ⟨attributes, ha⟩ := Context.resolve_ok hresolve
    exact .reference (hnamed hl ha).1
  · intro qualified ledger kind leafName attributes hl ha hs
    obtain ⟨hqualified, hattributes⟩ := hnamed hl ha
    obtain ⟨-, hn, -⟩ := objectShape_leaf hs
    exact legible_leaf (pairless_of_legible (hattributes.attr hn)) hattributes
      (pairless_namespaceOf hqualified)

/-- A node is outlined by what is legible. -/
def LegibleNode (flatten : Bool) (node : Json) : Prop :=
  ∀ enclosing : Text, enclosing.Pairless →
    Keeps Ledger.Legible (Outlining.node flatten node enclosing) Outline.Legible

theorem legible_branches {nodes : List Json} (henclosing : enclosing.Pairless)
    (ih : ∀ j ∈ nodes, LegibleNode flatten j) :
    Keeps Ledger.Legible (branches flatten nodes enclosing)
      fun made => ∀ branch ∈ made, branch.Legible := by
  induction nodes with
  | nil =>
    rw [branches]
    exact .pure (by simp)
  | cons j js hjs =>
    obtain ⟨hj, hrest⟩ := List.forall_mem_cons.1 ih
    rw [branches]
    refine (hj enclosing henclosing).bind fun first hfirst => ?_
    exact (hjs hrest).map fun rest h => List.forall_mem_cons.2 ⟨hfirst, h⟩

theorem legible_fields {record : Text} {list : List Json} (hrecord : record.Pairless)
    (ih : ∀ field ∈ list, ∀ attributes name type,
      fieldParts record field = .ok (attributes, name, type) →
      attributes.Legible ∧ (∃ t, name = .str t) ∧ LegibleNode flatten type) :
    Keeps Ledger.Legible (fields flatten record list)
      fun made => ∀ field ∈ made, field.1.Legible ∧ field.2.Legible := by
  induction list with
  | nil =>
    rw [fields]
    exact .pure (by simp)
  | cons field more hmore =>
    rw [fields]
    split
    · exact .throw _
    · rename_i attributes name type hp
      obtain ⟨-, hn, -⟩ := fieldParts_ok hp
      obtain ⟨ha, ⟨t, rfl⟩, htype⟩ := ih field List.mem_cons_self _ _ _ hp
      have hname := ha.attr hn
      refine (htype _ (pairless_namespaceOf hrecord)).bind fun property hproperty => ?_
      refine (Keeps.ofExcept _).bind fun nullable _ => ?_
      refine (Keeps.ofExcept _).bind fun key hkey => ?_
      refine (hmore fun i hi => ih i (List.mem_cons_of_mem _ hi)).map fun rest hrest => ?_
      have hkeyed : key.Legible := by
        cases hkey
        exact ⟨t, rfl, pairless_of_legible hname⟩
      exact List.forall_mem_cons.2 ⟨⟨⟨ha, hname, hkeyed⟩, hproperty⟩, hrest⟩

theorem legible_union {members : List Json} (henclosing : enclosing.Pairless)
    (ih : ∀ j ∈ members, LegibleNode flatten j) :
    Keeps Ledger.Legible (union flatten members enclosing) Outline.Legible := by
  rw [union]
  split
  · exact .throw _
  · exact (legible_branches henclosing ih).map fun made hmade => .choice hmade
  · rename_i member hu
    have hmember := ih member (mem_of_unionForm hu) enclosing henclosing
    split
    · exact hmember
    · refine (Keeps.inspect _).bind fun kind _ => ?_
      split
      · exact .pure (.nullable _ _)
      · have hnull : Outline.null.Legible := .flat (.scalar _ .empty)
        exact hmember.map fun branch hbranch => .choice (by simp [hnull, hbranch])

theorem legible_record {node : Json} {name : Text} {attributes : Json.Entries}
    (hs : shape node = .record name attributes) (hnode : node.Legible)
    (hnames : NamesFieldsByTexts node) (henclosing : enclosing.Pairless)
    (ih : ∀ j, Child j node → LegibleNode flatten j) :
    Keeps Ledger.Legible
      (do
        let qualified ← ofExcept (Name.ofNamed name attributes enclosing)
        if (← get).seen.contains qualified then pure (.flat (.reference qualified))
        else
          modify (Ledger.enter qualified attributes)
          let list ← ofExcept (fieldList qualified attributes)
          let made ← fields flatten qualified list.1
          modify (Ledger.finish qualified (.record qualified attributes made))
          pure (.record qualified attributes made)) Outline.Legible := by
  obtain ⟨rfl, hn, hrecord⟩ := isRecord_of_shape hs
  have ha : attributes.Legible := hnode
  refine (Keeps.ofExcept _).bind fun qualified hq => ?_
  have hqualified := pairless_ofNamed (pairless_of_legible (ha.attr hn)) ha henclosing hq
  refine Keeps.get fun ledger hl => ?_
  split
  · exact .pure (.flat (.reference hqualified))
  · refine (Keeps.modify fun ledger hl => hl.enter hqualified ha).bind fun _ _ => ?_
    refine (Keeps.ofExcept _).bind fun list hlist => ?_
    have hattr := fieldList_ok hlist
    have hfields : Keeps Ledger.Legible (fields flatten qualified list.1) _ :=
      legible_fields hqualified fun field hf fieldAttributes fieldName type hp => by
        obtain ⟨rfl, hfieldName, -⟩ := fieldParts_ok hp
        exact ⟨legible_of_mem (ha.attr hattr) hf,
          hnames attributes list.1 (.self _) hrecord hattr fieldAttributes hf fieldName hfieldName,
          ih type (child_of_field hs hattr hf hp)⟩
    refine hfields.bind fun made hmade => ?_
    have hlegible : Outline.Legible (.record qualified attributes made) :=
      .record hqualified ha (fun field hf => (hmade field hf).1) fun field hf => (hmade field hf).2
    exact (Keeps.modify fun ledger hl => hl.finish hqualified hlegible).bind fun _ _ => .pure hlegible

/-- **A legible node whose fields are named by texts is outlined by what is legible**, within a legible
namespace. -/
theorem legible_node (flatten : Bool) {node : Json} (hnode : node.Legible)
    (hnames : NamesFieldsByTexts node) : LegibleNode flatten node := by
  induction node using Schema.induction with
  | step node ih =>
    have ih : ∀ j, Child j node → LegibleNode flatten j :=
      fun j hj => ih j hj (hj.legible hnode) (hnames.child hj)
    intro enclosing henclosing
    rw [Outlining.node]
    split <;> rename_i hs
    · exact .throw _
    · exact legible_union henclosing fun j hj => ih j (.member hs hj)
    · exact (legible_typeName _).map fun _ h => .flat h
    · exact ih _ (.inner hs) enclosing henclosing
    · obtain ⟨_, rfl, rfl⟩ := fits_of_shape hs (by simp) (by simp) (by simp)
      exact .pure (.flat (.scalar _ hnode))
    · obtain ⟨_, rfl, rfl⟩ := fits_of_shape hs (by simp) (by simp) (by simp)
      have hn := (objectShape_leaf hs).2.1
      exact (legible_leaf (pairless_of_legible (Entries.Legible.attr hnode hn)) hnode henclosing).map
        fun _ h => .flat h
    · obtain ⟨_, rfl, rfl, -⟩ := fits_of_shape hs (by simp) (by simp) (by simp)
      exact (ih _ (.items hs) enclosing henclosing).map fun _ h => .array hnode h
    · obtain ⟨_, rfl, rfl, -⟩ := fits_of_shape hs (by simp) (by simp) (by simp)
      exact (ih _ (.values hs) enclosing henclosing).map fun _ h => .map hnode h
    · obtain ⟨_, rfl, rfl⟩ := fits_of_shape hs (by simp) (by simp) (by simp)
      exact (legible_typeName _).map fun _ h => .annotated hnode h
    · exact legible_record hs hnode hnames henclosing ih

end Outlining

end AvroJsonSchema
