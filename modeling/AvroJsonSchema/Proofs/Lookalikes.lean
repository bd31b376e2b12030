import Mathlib.Data.List.Forall2
import AvroJsonSchema.Proofs.FieldRuns
import AvroJsonSchema.Proofs.Kinds
import AvroJsonSchema.Proofs.Sessions

/-!
# Records that are stored otherwise

A conversion never looks into a record that is stored: whatever such a record holds, its name is a
reference and its kind is no primitive one.  So two contexts in which records are stored otherwise are
as good as each other, and two parts that do the same from any two such contexts may stand for each
other in all that is built around them.

* **`Context.Lookalike`**: two contexts differ in the stored records alone, and in what had been defined
  before.
* **`Step.Matches`**: two parts have the same result from lookalikes, and leave lookalikes.
* **`Conversion.matches_branches`**, **`Conversion.matches_union`**, **`Conversion.matches_fields`**,
  **`Conversion.matches_recordBody`**: what is built around parts that match.
* **`Conversion.matches_node`**: every node matches itself.
* **`Session.run_lookalikes`**: calls have the same results from lookalikes.
-/

namespace AvroJsonSchema

open Schema

namespace Context

open Conversion

/-- Two stored definitions are the same, or both are records. -/
def Interchangeable (a b : Json.Entries) : Prop :=
  a = b ∨ IsRecord a ∧ IsRecord b

/-- Two contexts have entered the same records and store the same types but for what stands in the
records.  What has been defined since, on top of two tables, is the same. -/
structure Lookalike (s t : Table Text Json.Entries) (c d : Context) : Prop where
  seen : c.seen = d.seen
  named : ∀ q, Option.Rel Interchangeable (c.named.get? q) (d.named.get? q)
  definitions : ∃ finished, c.definitions = s.merge finished ∧ d.definitions = t.merge finished

variable {s t : Table Text Json.Entries} {c d : Context}

theorem Lookalike.refl (c : Context) : c.Lookalike c.definitions c.definitions c where
  seen := rfl
  named q := by
    cases c.named.get? q with
    | none => exact .none
    | some attributes => exact .some (.inl rfl)
  definitions := ⟨[], rfl, rfl⟩

/-- Contexts that look alike do so on top of what is defined in them. -/
theorem Lookalike.rebase (h : c.Lookalike s t d) : c.Lookalike c.definitions d.definitions d :=
  ⟨h.seen, h.named, [], rfl, rfl⟩

theorem Lookalike.definitions_eq (h : c.Lookalike s s d) : c.definitions = d.definitions := by
  obtain ⟨finished, hc, hd⟩ := h.definitions
  rw [hc, hd]

theorem Lookalike.named_set (h : c.Lookalike s t d) {a b : Json.Entries} (hab : Interchangeable a b)
    (q p : Text) :
    Option.Rel Interchangeable ((c.named.set q a).get? p) ((d.named.set q b).get? p) := by
  rw [Table.get?_set, Table.get?_set]
  split
  · exact .some hab
  · exact h.named p

theorem Lookalike.addNamed (h : c.Lookalike s t d) (q : Text) (attributes : Json.Entries) :
    (c.addNamed q attributes).Lookalike s t (d.addNamed q attributes) :=
  ⟨h.seen, h.named_set (.inl rfl) q, h.definitions⟩

theorem Lookalike.enter (h : c.Lookalike s t d) {a b : Json.Entries} (hab : Interchangeable a b)
    (q : Text) : (c.enter q a).Lookalike s t (d.enter q b) :=
  ⟨congrArg (· ++ [q]) h.seen, h.named_set hab q, h.definitions⟩

theorem Lookalike.define (h : c.Lookalike s t d) (q : Text) (schema : Json.Entries) :
    (c.define q schema).Lookalike s t (d.define q schema) := by
  refine ⟨h.seen, h.named, ?_⟩
  obtain ⟨finished, hc, hd⟩ := h.definitions
  refine ⟨finished ++ [(q, schema)], ?_, ?_⟩
  · show c.definitions.set q schema = _
    rw [hc, Table.merge_concat]
  · show d.definitions.set q schema = _
    rw [hd, Table.merge_concat]

/-- Where nothing is stored in one of the contexts, nothing is in the other. -/
theorem Lookalike.stored (h : c.Lookalike s t d) (q : Text) :
    c.named.get? q = none ∧ d.named.get? q = none
      ∨ ∃ a b, c.named.get? q = some a ∧ d.named.get? q = some b ∧ Interchangeable a b := by
  have hq := h.named q
  generalize c.named.get? q = a at hq ⊢
  generalize d.named.get? q = b at hq ⊢
  cases hq with
  | none => exact .inl ⟨rfl, rfl⟩
  | some hab => exact .inr ⟨_, _, rfl, rfl, hab⟩

theorem Lookalike.has (h : c.Lookalike s t d) (q : Text) : c.named.has q = d.named.has q := by
  unfold Table.has
  rcases h.stored q with ⟨hc, hd⟩ | ⟨a, b, hc, hd, -⟩
  · rw [hc, hd]
  · rw [hc, hd]
    rfl

/-- A name means the same type in both contexts. -/
theorem Lookalike.resolve (h : c.Lookalike s t d) (name enclosing : Text) :
    c.resolve name enclosing = d.resolve name enclosing := by
  unfold Context.resolve
  simp only [h.has]

/-- The kind of a record, whatever it holds, is told by its type, and it is no primitive one. -/
theorem kind_of_isRecord {attributes : Json.Entries} (h : IsRecord attributes) :
    ∃ k, kind (.obj attributes) = .ok k ∧ primitiveOfKind? k = none := by
  rcases h with h | h
  · exact ⟨_, (kind_of_type h).trans (kind_of_plain trivial), by decide⟩
  · exact ⟨_, (kind_of_type h).trans (kind_of_plain trivial), by decide⟩

/-- Whether a node is of a primitive kind, through names, is the same in both contexts. -/
theorem Lookalike.resolveKind (h : c.Lookalike s t d) (schema : Json) (enclosing : Text) :
    (c.resolveKind schema enclosing).map primitiveOfKind? =
      (d.resolveKind schema enclosing).map primitiveOfKind? := by
  unfold Context.resolveKind
  simp only [h.resolve, bind, Except.bind]
  cases kind schema with
  | error fault => rfl
  | ok k =>
    cases k with
    | str name =>
      dsimp only
      split
      · rfl
      · cases TypeName.ofText name with
        | primitive p => rfl
        | complex c => rfl
        | defined name =>
          dsimp only
          cases d.resolve name enclosing with
          | error fault => rfl
          | ok q =>
            dsimp only
            rcases h.stored q with ⟨hc, hd⟩ | ⟨a, b, hc, hd, rfl | ⟨ha, hb⟩⟩
            · rw [hc, hd]
            · rw [hc, hd]
            · obtain ⟨k, hk, hp⟩ := kind_of_isRecord ha
              obtain ⟨k', hk', hp'⟩ := kind_of_isRecord hb
              rw [hc, hd, Option.getD_some, Option.getD_some, hk, hk']
              simp only [Except.map, hp, hp']
    | _ => rfl

/-- What is stored under a name has the same shape in both contexts, or is no enum and no fixed type in
either. -/
theorem Lookalike.stored_shape (h : c.Lookalike s t d) (q : Text) :
    objectShape ((c.named.get? q).getD []) = objectShape ((d.named.get? q).getD [])
      ∨ (∀ kind n es, objectShape ((c.named.get? q).getD []) ≠ .leaf kind n es)
        ∧ ∀ kind n es, objectShape ((d.named.get? q).getD []) ≠ .leaf kind n es := by
  have hrecord : ∀ {attributes : Json.Entries}, IsRecord attributes →
      ∀ kind n es, objectShape attributes ≠ .leaf kind n es :=
    fun ha _ _ _ hs => not_isRecord_of_leaf (objectShape_leaf hs).2.2 ha
  rcases h.stored q with ⟨hc, hd⟩ | ⟨a, b, hc, hd, rfl | ⟨ha, hb⟩⟩
  · rw [hc, hd]
    exact .inl rfl
  · rw [hc, hd]
    exact .inl rfl
  · rw [hc, hd]
    exact .inr ⟨hrecord ha, hrecord hb⟩

end Context

namespace Step

open Context

variable {α β : Type} {s t : Table Text Json.Entries}

/-- Two parts have the same result from contexts that look alike, and leave such contexts. -/
def Matches (s t : Table Text Json.Entries) (x y : Step α) : Prop :=
  ∀ c d, c.Lookalike s t d →
    (outcome x c).1 = (outcome y d).1 ∧ (outcome x c).2.Lookalike s t (outcome y d).2

theorem Matches.pure (a : α) : Matches s t (pure a) (pure a) :=
  fun _ _ h => ⟨rfl, h⟩

theorem Matches.throw (fault : Fault) : Matches s t (throw fault : Step α) (throw fault) :=
  fun _ _ h => ⟨rfl, h⟩

theorem Matches.ofExcept (x : Except Fault α) : Matches s t (ofExcept x) (ofExcept x) := by
  intro c d h
  rw [outcome_ofExcept, outcome_ofExcept]
  exact ⟨rfl, h⟩

theorem Matches.bind {x y : Step α} {f g : α → Step β} (hxy : Matches s t x y)
    (hfg : ∀ a, Matches s t (f a) (g a)) : Matches s t (x >>= f) (y >>= g) := by
  intro c d h
  obtain ⟨hresult, hafter⟩ := hxy c d h
  rw [outcome_bind, outcome_bind]
  rcases hx : outcome x c with ⟨result, c'⟩
  rcases hy : outcome y d with ⟨result', d'⟩
  rw [hx, hy] at hresult hafter
  obtain rfl : result = result' := hresult
  cases result with
  | error fault => exact ⟨rfl, hafter⟩
  | ok a => exact hfg a c' d' hafter

theorem Matches.map {x y : Step α} (g : α → β) (hxy : Matches s t x y) :
    Matches s t (x >>= Pure.pure ∘ g) (y >>= Pure.pure ∘ g) :=
  hxy.bind fun a => .pure (g a)

end Step

/-- Two forms of unions are the same but for members in a relation. -/
inductive UnionForm.Rel (R : Json → Json → Prop) : UnionForm → UnionForm → Prop
  | fault (fault : Fault) : UnionForm.Rel R (.fault fault) (.fault fault)
  | choice : UnionForm.Rel R .choice .choice
  | nullable {member member' : Json} :
      R member member' → UnionForm.Rel R (.nullable member) (.nullable member')

namespace Conversion

open Step Context

variable {setup : Setup} {s t : Table Text Json.Entries} {enclosing : Text}

/-! ### Names and leaves -/

theorem matches_reference (name : Text) :
    Matches s t (reference setup name) (reference setup name) :=
  .ofExcept _

theorem matches_leaf (options : Options) (kind : Leaf) (name : Text) (attributes : Json.Entries) :
    Matches s t (leaf options kind name attributes enclosing)
      (leaf options kind name attributes enclosing) := by
  intro c d h
  rw [outcome_leaf, outcome_leaf]
  cases Name.ofNamed name attributes enclosing with
  | error fault => exact ⟨rfl, h⟩
  | ok qualified =>
    refine ⟨rfl, ?_⟩
    dsimp only
    split
    · exact h
    · exact h.addNamed qualified attributes

/-- The name of what is neither an enum nor a fixed type is a reference. -/
theorem outcome_typeName_of_no_leaf {name qualified : Text} {c : Context}
    (hp : Primitive.ofText? name = none) (hr : c.resolve name enclosing = .ok qualified)
    (h : ∀ kind n es, objectShape ((c.named.get? qualified).getD []) ≠ .leaf kind n es) :
    outcome (typeName setup name enclosing) c = outcome (reference setup qualified) c := by
  rw [outcome_typeName, hp, hr]
  dsimp only
  split
  · rfl
  · split
    · rename_i hs
      exact absurd hs (h _ _ _)
    · rfl

/-- A name is a reference where a record is stored, whichever it is. -/
theorem matches_typeName (name : Text) :
    Matches s t (typeName setup name enclosing) (typeName setup name enclosing) := by
  intro c d h
  cases hp : Primitive.ofText? name with
  | some p =>
    rw [outcome_typeName, outcome_typeName, hp]
    exact ⟨rfl, h⟩
  | none =>
    cases hr : d.resolve name enclosing with
    | error fault =>
      rw [outcome_typeName, outcome_typeName, hp, h.resolve, hr]
      exact ⟨rfl, h⟩
    | ok qualified =>
      rcases h.stored_shape qualified with hs | ⟨hc, hd⟩
      · rw [outcome_typeName, outcome_typeName, hp, h.resolve, hr, h.seen]
        dsimp only
        rw [hs]
        split
        · exact matches_reference qualified c d h
        · cases objectShape ((d.named.get? qualified).getD []) with
          | leaf kind n attributes => exact matches_leaf setup.options kind n attributes c d h
          | _ => exact matches_reference qualified c d h
      · rw [outcome_typeName_of_no_leaf hp ((h.resolve name enclosing).trans hr) hc,
          outcome_typeName_of_no_leaf hp hr hd]
        exact matches_reference qualified c d h

/-! ### Lists of nodes and unions -/

theorem matches_branches {nodes nodes' : List Json}
    (h : List.Forall₂ (fun j j' =>
      Matches s t (node setup j enclosing) (node setup j' enclosing)) nodes nodes') :
    Matches s t (branches setup nodes enclosing) (branches setup nodes' enclosing) := by
  induction h with
  | nil =>
    rw [branches_nil]
    exact .pure _
  | cons hj _ ih =>
    rw [branches_cons, branches_cons]
    exact hj.bind fun _ => ih.map _

/-- Members that have the same kinds as others are left out with these. -/
theorem nonNull_related {R : Json → Json → Prop} (hR : ∀ j j', R j j' → kind j = kind j')
    {members members' : List Json} (h : List.Forall₂ R members members') :
    (∃ fault, nonNull members = .error fault ∧ nonNull members' = .error fault)
      ∨ ∃ rest rest', nonNull members = .ok rest ∧ nonNull members' = .ok rest'
        ∧ List.Forall₂ R rest rest' := by
  induction h with
  | nil => exact .inr ⟨[], [], rfl, rfl, .nil⟩
  | @cons j j' js js' hj _ ih =>
    have hkind := hR j j' hj
    cases hk : kind j with
    | error fault =>
      refine .inl ⟨fault, ?_, ?_⟩
      · simp only [nonNull, hk, bind, Except.bind]
      · simp only [nonNull, ← hkind, hk, bind, Except.bind]
    | ok k =>
      rcases ih with ⟨fault, hrest, hrest'⟩ | ⟨rest, rest', hrest, hrest', hrelated⟩
      · refine .inl ⟨fault, ?_, ?_⟩
        · simp only [nonNull, hk, hrest, bind, Except.bind]
        · simp only [nonNull, ← hkind, hk, hrest', bind, Except.bind]
      · refine .inr ⟨_, _, nonNull_cons hk hrest, nonNull_cons (hkind ▸ hk) hrest', ?_⟩
        split
        · exact hrelated
        · exact .cons hj hrelated

theorem unionForm_related {R : Json → Json → Prop} (hR : ∀ j j', R j j' → kind j = kind j')
    {members members' : List Json} (h : List.Forall₂ R members members') :
    UnionForm.Rel R (unionForm members) (unionForm members') := by
  unfold unionForm
  rcases nonNull_related hR h with ⟨fault, hf, hf'⟩ | ⟨rest, rest', hrest, hrest', hrelated⟩
  · rw [hf, hf']
    exact .fault fault
  · rw [hrest, hrest', h.length_eq]
    cases hrelated with
    | nil => exact .choice
    | @cons member member' more more' hm hmore =>
      cases hmore with
      | nil =>
        dsimp only
        split
        · exact .choice
        · exact .nullable hm
      | cons _ _ => exact .choice

/-- A union that is not flattened asks for the kind of its member, and both contexts tell whether it is
a primitive one. -/
theorem matches_unflattened {members : List Json} {member : Json}
    (hu : unionForm members = .nullable member) (hflatten : setup.options.flattenNullableUnions = false)
    (h : Matches s t (node setup member enclosing) (node setup member enclosing)) :
    Matches s t (union setup members enclosing) (union setup members enclosing) := by
  intro c d hcd
  have hboth := h c d hcd
  have hkinds := hcd.resolveKind member enclosing
  rw [outcome_union_of_nullable hu hflatten, outcome_union_of_nullable hu hflatten]
  cases hc : c.resolveKind member enclosing with
  | error fault =>
    cases hd : d.resolveKind member enclosing with
    | error fault' =>
      rw [hc, hd] at hkinds
      cases hkinds
      exact ⟨rfl, hcd⟩
    | ok k' =>
      rw [hc, hd] at hkinds
      cases hkinds
  | ok k =>
    cases hd : d.resolveKind member enclosing with
    | error fault' =>
      rw [hc, hd] at hkinds
      cases hkinds
    | ok k' =>
      have hsame : primitiveOfKind? k = primitiveOfKind? k' := by
        rw [hc, hd] at hkinds
        exact Except.ok.inj hkinds
      dsimp only
      rw [hsame]
      cases primitiveOfKind? k' with
      | some p => exact ⟨rfl, hcd⟩
      | none =>
        dsimp only
        rcases hx : outcome (node setup member enclosing) c with ⟨result, c'⟩
        rcases hy : outcome (node setup member enclosing) d with ⟨result', d'⟩
        rw [hx, hy] at hboth
        obtain ⟨rfl, hafter⟩ : result = result' ∧ c'.Lookalike s t d' := hboth
        cases result with
        | error fault => exact ⟨rfl, hafter⟩
        | ok branch => exact ⟨rfl, hafter⟩

/-- Two unions match if their members do and have the same kinds.  What is made of a primitive member
that is not flattened hangs on more than that, so then the members have to be the same. -/
theorem matches_union {members members' : List Json}
    (h : List.Forall₂ (fun j j' => kind j = kind j' ∧
      Matches s t (node setup j enclosing) (node setup j' enclosing)) members members')
    (hsame : setup.options.flattenNullableUnions = false → members' = members) :
    Matches s t (union setup members enclosing) (union setup members' enclosing) := by
  have hforms := unionForm_related (fun _ _ hj => hj.1) h
  cases hu : unionForm members with
  | fault fault =>
    rw [hu] at hforms
    generalize hu' : unionForm members' = form at hforms
    cases hforms
    rw [union_of_fault hu, union_of_fault hu']
    exact .throw fault
  | choice =>
    rw [hu] at hforms
    generalize hu' : unionForm members' = form at hforms
    cases hforms
    rw [union_of_choice hu, union_of_choice hu']
    exact (matches_branches (h.imp fun _ _ hj => hj.2)).map _
  | nullable member =>
    rw [hu] at hforms
    generalize hu' : unionForm members' = form at hforms
    cases hforms with
    | nullable hm =>
      cases hflatten : setup.options.flattenNullableUnions with
      | true =>
        rw [union_of_flattened hu hflatten, union_of_flattened hu' hflatten]
        exact hm.2
      | false =>
        obtain rfl := hsame hflatten
        rw [hu] at hu'
        cases hu'
        exact matches_unflattened hu hflatten hm.2

/-! ### Records and whole nodes -/

/-- The properties of two fields match if the names are the same, the types match and admit null alike,
and the same is written beside the types. -/
theorem matches_property {record : Text} {field field' : Json}
    (h : (∃ fault, fieldParts record field = .error fault ∧ fieldParts record field' = .error fault)
      ∨ ∃ attributes attributes' name type type',
        fieldParts record field = .ok (attributes, name, type)
        ∧ fieldParts record field' = .ok (attributes', name, type')
        ∧ Keywords.decorate attributes' = Keywords.decorate attributes
        ∧ isNullable type = isNullable type'
        ∧ ∀ enclosing, Matches s t (node setup type enclosing) (node setup type' enclosing)) :
    Matches s t (property setup record field) (property setup record field') := by
  unfold property
  rcases h with ⟨fault, hf, hf'⟩ | ⟨attributes, attributes', name, type, type', hf, hf', hd, hn, ht⟩
  · rw [hf, hf']
    exact .throw fault
  · rw [hf, hf']
    refine (ht _).bind fun converted => ?_
    rw [hn]
    refine (Matches.ofExcept _).bind fun nullable => ?_
    have hsame : propertyOf attributes' name nullable converted =
        propertyOf attributes name nullable converted := by
      unfold propertyOf
      rw [hd]
    dsimp only
    rw [hsame]
    exact .ofExcept _

theorem matches_properties {record : Text} {list list' : List Json}
    (h : List.Forall₂ (fun field field' =>
      Matches s t (property setup record field) (property setup record field')) list list') :
    Matches s t (properties setup record list) (properties setup record list') := by
  induction h with
  | nil =>
    rw [properties]
    exact .pure _
  | cons hfield _ ih =>
    rw [properties, properties]
    exact hfield.bind fun _ => ih.map _

theorem matches_fields {record : Text} {list list' : List Json}
    (h : List.Forall₂ (fun field field' =>
      Matches s t (property setup record field) (property setup record field')) list list')
    (table : Json.Entries) (required : List Json) :
    Matches s t (fields setup record list table required) (fields setup record list' table required) := by
  rw [fields_eq, fields_eq]
  exact (matches_properties h).map _

/-- Two records that have been entered match if their fields do and the same is written around them. -/
theorem matches_recordBody {qualified : Text} {attributes attributes' : Json.Entries}
    (hlist : (∃ fault, fieldList qualified attributes = .error fault
        ∧ fieldList qualified attributes' = .error fault)
      ∨ ∃ list list', fieldList qualified attributes = .ok list
        ∧ fieldList qualified attributes' = .ok list'
        ∧ List.Forall₂ (fun field field' => Matches s t (property setup qualified field)
            (property setup qualified field')) list.1 list'.1)
    (hkeywords : recordKeywords setup.options qualified attributes' =
      recordKeywords setup.options qualified attributes) :
    Matches s t (recordBody setup qualified attributes) (recordBody setup qualified attributes') := by
  intro c d h
  rw [outcome_recordBody, outcome_recordBody]
  rcases hlist with ⟨fault, hl, hl'⟩ | ⟨list, list', hl, hl', hfields⟩
  · rw [hl, hl']
    exact ⟨rfl, h⟩
  · rw [hl, hl', hkeywords]
    dsimp only
    have hboth := matches_fields hfields [] [] c d h
    rcases hx : outcome (fields setup qualified list.1 [] []) c with ⟨result, c'⟩
    rcases hy : outcome (fields setup qualified list'.1 [] []) d with ⟨result', d'⟩
    rw [hx, hy] at hboth
    obtain ⟨rfl, hafter⟩ : result = result' ∧ c'.Lookalike s t d' := hboth
    cases result with
    | error fault => exact ⟨rfl, hafter⟩
    | ok made => exact ⟨rfl, hafter.define qualified _⟩

/-- Two records match if they have the same full name and match once they have been entered. -/
theorem matches_record {schema schema' : Json} {name : Text} {attributes attributes' : Json.Entries}
    (hs : shape schema = .record name attributes) (hs' : shape schema' = .record name attributes')
    (hname : Name.ofNamed name attributes' enclosing = Name.ofNamed name attributes enclosing)
    (hbody : ∀ qualified, Matches s t (recordBody setup qualified attributes)
      (recordBody setup qualified attributes')) :
    Matches s t (node setup schema enclosing) (node setup schema' enclosing) := by
  intro c d h
  rw [outcome_record hs, outcome_record hs', hname, h.seen]
  cases Name.ofNamed name attributes enclosing with
  | error fault => exact ⟨rfl, h⟩
  | ok qualified =>
    dsimp only
    split
    · exact matches_reference qualified c d h
    · exact hbody qualified _ _ (h.enter (.inr ⟨(isRecord_of_shape hs).2.2, (isRecord_of_shape hs').2.2⟩) _)

/-- A field matches itself if its type does. -/
theorem matches_property_self {record : Text} {field : Json}
    (h : ∀ attributes name type, fieldParts record field = .ok (attributes, name, type) →
      ∀ enclosing, Matches s t (node setup type enclosing) (node setup type enclosing)) :
    Matches s t (property setup record field) (property setup record field) := by
  refine matches_property ?_
  cases hp : fieldParts record field with
  | error fault => exact .inl ⟨fault, rfl, rfl⟩
  | ok parts =>
    obtain ⟨attributes, name, type⟩ := parts
    exact .inr ⟨attributes, attributes, name, type, type, rfl, rfl, rfl, rfl, h _ _ _ hp⟩

/-- **Every node matches itself**: what is made of it, and what it does to the context, is the same
whatever the stored records hold. -/
theorem matches_node (setup : Setup) (schema : Json) (enclosing : Text) :
    Matches s t (node setup schema enclosing) (node setup schema enclosing) := by
  induction schema using Schema.induction generalizing enclosing with
  | step schema ih =>
    cases hs : shape schema with
    | malformed fault =>
      rw [node_of_malformed hs]
      exact .throw _
    | union members =>
      rw [node_of_union hs]
      refine matches_union (List.forall₂_same.2 fun j hj => ⟨rfl, ?_⟩) fun _ => rfl
      exact ih j (.member hs hj) enclosing
    | name name =>
      rw [node_of_name hs]
      exact matches_typeName name
    | wrapper inner =>
      rw [node_of_wrapper hs]
      exact ih inner (.inner hs) enclosing
    | primitive p attributes =>
      rw [node_of_primitive hs]
      exact .pure _
    | leaf kind name attributes =>
      rw [node_of_leaf hs]
      exact matches_leaf _ _ _ _
    | array items attributes =>
      rw [node_of_array hs]
      exact (ih items (.items hs) enclosing).map _
    | map values attributes =>
      rw [node_of_map hs]
      exact (ih values (.values hs) enclosing).map _
    | reference name attributes =>
      rw [node_of_reference hs]
      exact (matches_typeName name).map _
    | record name attributes =>
      refine matches_record hs hs rfl fun qualified => matches_recordBody ?_ rfl
      cases hl : fieldList qualified attributes with
      | error fault => exact .inl ⟨fault, rfl, rfl⟩
      | ok list =>
        refine .inr ⟨list, list, rfl, rfl, List.forall₂_same.2 fun field hfield => ?_⟩
        exact matches_property_self fun _ _ type hp =>
          ih type (child_of_field hs (fieldList_ok hl) hfield hp)

end Conversion

namespace Session

open Step Conversion

variable {setup : Setup} {s t : Table Text Json.Entries}

theorem matches_call (setup : Setup) (call : Call) : Matches s t (call.step setup) (call.step setup) := by
  cases call with
  | node schema enclosing => exact matches_node setup schema enclosing
  | union members enclosing =>
    exact matches_union (List.forall₂_same.2 fun j _ => ⟨rfl, matches_node setup j enclosing⟩) fun _ => rfl
  | typeName name enclosing => exact matches_typeName name

/-- All calls from contexts that look alike have the same results. -/
theorem run_lookalikes {c d : Context} (h : c.Lookalike s t d) (calls : List Call) :
    (run setup c calls).1 = (run setup d calls).1
      ∧ (run setup c calls).2.Lookalike s t (run setup d calls).2 := by
  induction calls generalizing c d with
  | nil => exact ⟨rfl, h⟩
  | cons call calls ih =>
    obtain ⟨hresult, hafter⟩ := matches_call setup call c d h
    obtain ⟨hresults, hafters⟩ := ih hafter
    refine ⟨?_, hafters⟩
    rw [run, run, hresult, hresults]

end Session

end AvroJsonSchema
