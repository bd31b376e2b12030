import AvroJsonSchema.Document
import AvroJsonSchema.Proofs.Tables

/-!
# Runs of a conversion

A part of a conversion takes a context to an outcome: a value or a fault, and the context that is
left.  Here every part is read as that function, with one equation for each way a node or a union
is converted, so that the recursion itself is opened nowhere else.

* **`Step.outcome`**: a part as a function of contexts.  **`Step.bind_ok`**: a run of two parts
  that ends well is a run of each.
* **`Conversion.recordBody`**: the conversion of a record that has been entered.
* **`UnionForm`**, **`Conversion.unionForm`**: the ways a union is converted.
* **`Conversion.outcome_record`**, **`Conversion.outcome_union_of_nullable`**: among the equations.
* **`Conversion.record_ok`**, **`Conversion.nullable_ok`**, **`Conversion.leaf_ok`**: what a conversion that
  ends well has done.
-/

namespace AvroJsonSchema

namespace Step

variable {α β : Type}

/-- The outcome of a part of a conversion, and the context it leaves. -/
def outcome (x : Step α) (context : Context) : Except Fault α × Context :=
  x.run.run context

theorem outcome_get (c : Context) : outcome (get : Step Context) c = (.ok c, c) :=
  rfl

theorem outcome_modify (g : Context → Context) (c : Context) :
    outcome (modify g : Step Unit) c = (.ok (), g c) :=
  rfl

theorem outcome_ofExcept (x : Except Fault α) (c : Context) : outcome (ofExcept x) c = (x, c) := by
  cases x <;> rfl

theorem outcome_bind (x : Step α) (f : α → Step β) (c : Context) :
    outcome (x >>= f) c =
      match outcome x c with
      | (.ok a, c') => outcome (f a) c'
      | (.error fault, c') => (.error fault, c') := by
  show (ExceptT.bind x f c : Except Fault β × Context) = _
  simp only [ExceptT.bind, ExceptT.mk, bind, StateT.bind]
  show ExceptT.bindCont f (outcome x c).1 (outcome x c).2 = _
  rcases outcome x c with ⟨result, c'⟩
  cases result <;> rfl

theorem outcome_inspect (look : Context → Except Fault α) (c : Context) :
    outcome (inspect look) c = (look c, c) := by
  show outcome (get >>= fun context => ofExcept (look context)) c = _
  rw [outcome_bind, outcome_get]
  exact outcome_ofExcept _ _

theorem outcome_map (g : α → β) (x : Step α) (c : Context) :
    outcome (x >>= pure ∘ g) c = ((outcome x c).1.map g, (outcome x c).2) := by
  rw [outcome_bind]
  rcases outcome x c with ⟨result, c'⟩
  cases result <;> rfl

/-- A run of two parts that ends well is a run of the first and then one of the second. -/
theorem bind_ok {x : Step α} {f : α → Step β} {c c'' : Context} {b : β}
    (h : outcome (x >>= f) c = (.ok b, c'')) :
    ∃ a c', outcome x c = (.ok a, c') ∧ outcome (f a) c' = (.ok b, c'') := by
  rw [outcome_bind] at h
  rcases hx : outcome x c with ⟨result, c'⟩
  rw [hx] at h
  cases result with
  | error fault => cases h
  | ok a => exact ⟨a, c', rfl, h⟩

theorem bind_of_ok {x : Step α} {c c' : Context} {a : α} (h : outcome x c = (.ok a, c'))
    (f : α → Step β) : outcome (x >>= f) c = outcome (f a) c' := by
  rw [outcome_bind, h]

theorem bind_of_fault {x : Step α} {c c' : Context} {fault : Fault}
    (h : outcome x c = (.error fault, c')) (f : α → Step β) :
    outcome (x >>= f) c = (.error fault, c') := by
  rw [outcome_bind, h]

/-- A run of two parts that fails fails in the first, or in the second after a run of the first. -/
theorem bind_fault {x : Step α} {f : α → Step β} {c c'' : Context} {fault : Fault}
    (h : outcome (x >>= f) c = (.error fault, c'')) :
    outcome x c = (.error fault, c'')
      ∨ ∃ a c', outcome x c = (.ok a, c') ∧ outcome (f a) c' = (.error fault, c'') := by
  rcases hx : outcome x c with ⟨result, c'⟩
  cases result with
  | error fault' =>
    rw [bind_of_fault hx] at h
    cases h
    exact .inl rfl
  | ok a =>
    rw [bind_of_ok hx] at h
    exact .inr ⟨a, c', rfl, h⟩

theorem ofExcept_bind_of_ok {x : Except Fault α} {a : α} (h : x = .ok a) (f : α → Step β)
    (c : Context) : outcome (ofExcept x >>= f) c = outcome (f a) c := by
  rw [h]
  rfl

theorem ofExcept_bind_fault {x : Except Fault α} {f : α → Step β} {c c' : Context} {fault : Fault}
    (h : outcome (ofExcept x >>= f) c = (.error fault, c')) :
    c' = c ∨ ∃ a, x = .ok a ∧ outcome (f a) c = (.error fault, c') := by
  cases x with
  | error fault' =>
    cases h
    exact .inl rfl
  | ok a => exact .inr ⟨a, rfl, h⟩

theorem ofExcept_ok {x : Except Fault α} {c c' : Context} {a : α}
    (h : outcome (ofExcept x) c = (.ok a, c')) : x = .ok a ∧ c' = c := by
  rw [outcome_ofExcept] at h
  obtain ⟨hx, hc⟩ := Prod.mk.injEq _ _ _ _ ▸ h
  exact ⟨hx, hc.symm⟩

theorem inspect_ok {look : Context → Except Fault α} {c c' : Context} {a : α}
    (h : outcome (inspect look) c = (.ok a, c')) : look c = .ok a ∧ c' = c := by
  rw [outcome_inspect] at h
  obtain ⟨hx, hc⟩ := Prod.mk.injEq _ _ _ _ ▸ h
  exact ⟨hx, hc.symm⟩

theorem map_ok {g : α → β} {x : Step α} {c c' : Context} {b : β}
    (h : outcome (x >>= pure ∘ g) c = (.ok b, c')) :
    ∃ a, outcome x c = (.ok a, c') ∧ b = g a := by
  obtain ⟨a, c₁, hx, hp⟩ := bind_ok h
  cases hp
  exact ⟨a, hx, rfl⟩

end Step

/-! ### The ways a union is converted -/

/-- How a union is converted. -/
inductive UnionForm where
  /-- The kind of a member cannot be told. -/
  | fault (fault : Fault)
  /-- A choice between all members. -/
  | choice
  /-- One member that is not null beside one or more that are. -/
  | nullable (member : Json)

namespace Conversion

open Schema Step

/-- How a union of some members is converted. -/
def unionForm (members : List Json) : UnionForm :=
  match nonNull members with
  | .error fault => .fault fault
  | .ok [member] => if members.length = 1 then .choice else .nullable member
  | .ok _ => .choice

theorem mem_of_unionForm {members : List Json} {member : Json}
    (h : unionForm members = .nullable member) : member ∈ members := by
  unfold unionForm at h
  split at h
  · cases h
  · rename_i hm
    split at h
    · cases h
    · cases h
      exact mem_of_nonNull hm member (by simp)
  · cases h

variable {setup : Setup} {members : List Json} {enclosing : Text}

theorem union_of_fault {fault : Fault} (h : unionForm members = .fault fault) :
    union setup members enclosing = throw fault := by
  rw [union]
  unfold unionForm at h
  split <;> rename_i hm <;> rw [hm] at h
  · cases h
    rfl
  · dsimp only at h
    split at h <;> cases h
  · split at h
    · rename_i heq
      cases heq
    · rename_i heq
      cases heq
      split at h <;> cases h
    · cases h

theorem union_of_choice (h : unionForm members = .choice) :
    union setup members enclosing =
      branches setup members enclosing >>= (pure ∘ Keywords.oneOf) := by
  rw [union]
  unfold unionForm at h
  split <;> rename_i hm <;> rw [hm] at h
  · cases h
  · dsimp only at h
    split at h
    · rename_i hl
      simp only [hl, if_true]
    · cases h

theorem union_of_nullable {member : Json} (h : unionForm members = .nullable member) :
    union setup members enclosing =
      if setup.options.flattenNullableUnions then node setup member enclosing
      else (do
        let kind ← Step.inspect (Context.resolveKind · member enclosing)
        match primitiveOfKind? kind with
        | some p => pure (Keywords.nullableScalar setup.options member p)
        | none =>
          let branch ← node setup member enclosing
          pure (Keywords.oneOf [Keywords.nullSchema, .obj branch])) := by
  rw [union]
  unfold unionForm at h
  split <;> rename_i hm <;> rw [hm] at h
  · cases h
  · dsimp only at h
    split at h
    · cases h
    · rename_i hl
      cases h
      exact if_neg hl
  · split at h
    · rename_i heq
      cases heq
    · rename_i m heq
      cases heq
      rename_i hne
      exact absurd rfl (hne m)
    · cases h

/-- A union of null and another type that is flattened is the other type. -/
theorem union_of_flattened {member : Json} (h : unionForm members = .nullable member)
    (hf : setup.options.flattenNullableUnions = true) :
    union setup members enclosing = node setup member enclosing := by
  rw [union_of_nullable h, hf, if_pos rfl]

/-- A union of null and another type that is not flattened. -/
theorem outcome_union_of_nullable {member : Json} (h : unionForm members = .nullable member)
    (hf : setup.options.flattenNullableUnions = false) (c : Context) :
    outcome (union setup members enclosing) c =
      match c.resolveKind member enclosing with
      | .error fault => (.error fault, c)
      | .ok kind =>
        match primitiveOfKind? kind with
        | some p => (.ok (Keywords.nullableScalar setup.options member p), c)
        | none =>
          match outcome (node setup member enclosing) c with
          | (.ok branch, c') => (.ok (Keywords.oneOf [Keywords.nullSchema, .obj branch]), c')
          | (.error fault, c') => (.error fault, c') := by
  rw [union_of_nullable h, hf, if_neg Bool.false_ne_true, outcome_bind, outcome_inspect]
  cases hk : c.resolveKind member enclosing with
  | error fault => rfl
  | ok kind =>
    dsimp only
    cases primitiveOfKind? kind with
    | some p => rfl
    | none =>
      dsimp only
      rw [outcome_bind]
      rcases outcome (node setup member enclosing) c with ⟨result, c'⟩
      cases result <;> rfl

section Nullable

variable {member kind : Json} {c c' : Context}

theorem union_of_scalar (hu : unionForm members = .nullable member)
    (hf : setup.options.flattenNullableUnions = false) {p : Primitive}
    (hk : c.resolveKind member enclosing = .ok kind) (hp : primitiveOfKind? kind = some p) :
    outcome (union setup members enclosing) c =
      (.ok (Keywords.nullableScalar setup.options member p), c) := by
  rw [outcome_union_of_nullable hu hf, hk]
  dsimp only
  rw [hp]

theorem union_of_converted (hu : unionForm members = .nullable member)
    (hf : setup.options.flattenNullableUnions = false) {branch : Json.Entries}
    (hk : c.resolveKind member enclosing = .ok kind) (hp : primitiveOfKind? kind = none)
    (h : outcome (node setup member enclosing) c = (.ok branch, c')) :
    outcome (union setup members enclosing) c =
      (.ok (Keywords.oneOf [Keywords.nullSchema, .obj branch]), c') := by
  rw [outcome_union_of_nullable hu hf, hk]
  dsimp only
  rw [hp]
  dsimp only
  rw [h]

/-- What the conversion of a union of null and another type that ends well has done. -/
theorem nullable_ok {es : Json.Entries} (hu : unionForm members = .nullable member)
    (hf : setup.options.flattenNullableUnions = false)
    (h : outcome (union setup members enclosing) c = (.ok es, c')) :
    ∃ kind, c.resolveKind member enclosing = .ok kind
      ∧ ((∃ p, primitiveOfKind? kind = some p
          ∧ es = Keywords.nullableScalar setup.options member p ∧ c' = c)
        ∨ (primitiveOfKind? kind = none
          ∧ ∃ branch, outcome (node setup member enclosing) c = (.ok branch, c')
            ∧ es = Keywords.oneOf [Keywords.nullSchema, .obj branch])) := by
  rw [outcome_union_of_nullable hu hf] at h
  cases hk : c.resolveKind member enclosing with
  | error fault =>
    rw [hk] at h
    cases h
  | ok kind =>
    rw [hk] at h
    dsimp only at h
    refine ⟨kind, rfl, ?_⟩
    cases hp : primitiveOfKind? kind with
    | some p =>
      rw [hp] at h
      cases h
      exact .inl ⟨p, rfl, rfl, rfl⟩
    | none =>
      rw [hp] at h
      dsimp only at h
      rcases hnode : outcome (node setup member enclosing) c with ⟨_ | branch, c₁⟩
      · rw [hnode] at h
        cases h
      · rw [hnode] at h
        cases h
        exact .inr ⟨rfl, branch, rfl, rfl⟩

end Nullable

/-! ### Names and leaves -/

theorem outcome_reference (name : Text) (c : Context) :
    outcome (reference setup name) c =
      ((setup.draftFor "ref_prefix").map (Keywords.reference · name), c) :=
  outcome_ofExcept _ _

theorem reference_ok {options : Options} {name : Text} {es : Json.Entries} {c c' : Context}
    (h : outcome (reference options.setup name) c = (.ok es, c')) :
    es = Keywords.reference options.draft name ∧ c' = c := by
  have hr : outcome (reference options.setup name) c =
      (.ok (Keywords.reference options.draft name), c) := outcome_reference name c
  rw [hr] at h
  cases h
  exact ⟨rfl, rfl⟩

/-- An enum or a fixed type is defined unless its full name is empty, also where its keywords then
cannot be told. -/
theorem outcome_leaf (options : Options) (kind : Leaf) (name : Text) (attributes : Json.Entries)
    (c : Context) :
    outcome (leaf options kind name attributes enclosing) c =
      match Name.ofNamed name attributes enclosing with
      | .error fault => (.error fault, c)
      | .ok qualified =>
        ((leafKeywords options kind qualified attributes).map (Keywords.annotate attributes),
          if qualified.isEmpty then c else c.addNamed qualified attributes) := by
  unfold leaf
  rw [outcome_bind, outcome_ofExcept]
  cases Name.ofNamed name attributes enclosing with
  | error fault => rfl
  | ok qualified =>
    dsimp only
    cases qualified.isEmpty <;> cases leafKeywords options kind qualified attributes <;> rfl

/-- What the conversion of an enum or a fixed type that ends well has done. -/
theorem leaf_ok {options : Options} {kind : Leaf} {name : Text} {attributes es : Json.Entries}
    {c c' : Context} (h : outcome (leaf options kind name attributes enclosing) c = (.ok es, c')) :
    ∃ qualified keywords, Name.ofNamed name attributes enclosing = .ok qualified
      ∧ leafKeywords options kind qualified attributes = .ok keywords
      ∧ es = Keywords.annotate attributes keywords
      ∧ c' = if qualified.isEmpty then c else c.addNamed qualified attributes := by
  rw [outcome_leaf] at h
  cases hq : Name.ofNamed name attributes enclosing with
  | error fault =>
    rw [hq] at h
    cases h
  | ok qualified =>
    rw [hq] at h
    obtain ⟨hes, hc'⟩ := Prod.mk.injEq _ _ _ _ ▸ h
    cases hk : leafKeywords options kind qualified attributes with
    | error fault =>
      rw [hk] at hes
      cases hes
    | ok keywords =>
      rw [hk] at hes
      exact ⟨qualified, keywords, rfl, hk, (Except.ok.inj hes).symm, hc'.symm⟩

/-- A name of a record is a reference; the name of another type is its definition again. -/
theorem outcome_typeName (name : Text) (c : Context) :
    outcome (typeName setup name enclosing) c =
      match Primitive.ofText? name with
      | some p => (.ok ((Scalar.primitive p).apply false []), c)
      | none =>
        match c.resolve name enclosing with
        | .error fault => (.error fault, c)
        | .ok qualified =>
          if qualified ∈ c.seen then outcome (reference setup qualified) c
          else
            match objectShape ((c.named.get? qualified).getD []) with
            | .leaf kind name attributes =>
              outcome (leaf setup.options kind name attributes (Name.namespaceOf qualified)) c
            | _ => outcome (reference setup qualified) c := by
  unfold typeName
  cases Primitive.ofText? name with
  | some p => rfl
  | none =>
    dsimp only
    rw [outcome_bind, outcome_inspect]
    cases c.resolve name enclosing with
    | error fault => rfl
    | ok qualified =>
      dsimp only
      rw [outcome_bind, outcome_get]
      by_cases hq : qualified ∈ c.seen
      · simp only [List.contains_eq_mem, hq, decide_true, if_true]
      · simp only [List.contains_eq_mem, hq, decide_false, Bool.false_eq_true, if_false]
        cases objectShape ((c.named.get? qualified).getD []) <;> rfl

/-! ### The ways a node is converted -/

section Node

variable {schema : Json} {name : Text} {attributes : Json.Entries}

theorem node_of_malformed {fault : SchemaFault} (h : shape schema = .malformed fault) :
    node setup schema enclosing = throw (.schema fault) := by
  rw [node]
  split <;> rename_i hs <;> rw [h] at hs <;> cases hs
  rfl

theorem node_of_union (h : shape schema = .union members) :
    node setup schema enclosing = union setup members enclosing := by
  rw [node]
  split <;> rename_i hs <;> rw [h] at hs <;> cases hs
  rfl

theorem node_of_name (h : shape schema = .name name) :
    node setup schema enclosing = typeName setup name enclosing := by
  rw [node]
  split <;> rename_i hs <;> rw [h] at hs <;> cases hs
  rfl

theorem node_of_wrapper {inner : Json} (h : shape schema = .wrapper inner) :
    node setup schema enclosing = node setup inner enclosing := by
  rw [node]
  split <;> rename_i hs <;> rw [h] at hs <;> cases hs
  rfl

theorem node_of_primitive {p : Primitive} (h : shape schema = .primitive p attributes) :
    node setup schema enclosing =
      pure (Keywords.annotate attributes
        (Keywords.ofScalar setup.options attributes (.primitive p))) := by
  rw [node]
  split <;> rename_i hs <;> rw [h] at hs <;> cases hs
  rfl

theorem node_of_leaf {kind : Leaf} (h : shape schema = .leaf kind name attributes) :
    node setup schema enclosing = leaf setup.options kind name attributes enclosing := by
  rw [node]
  split <;> rename_i hs <;> rw [h] at hs <;> cases hs
  rfl

/-- The keywords of an array around those of its items. -/
def arrayKeywords (options : Options) (attributes inner : Json.Entries) : Json.Entries :=
  Keywords.annotate attributes
    ((Keywords.withType options attributes .array).put "items" (.obj inner))

/-- The keywords of a map around those of its values. -/
def mapKeywords (options : Options) (attributes inner : Json.Entries) : Json.Entries :=
  Keywords.annotate attributes
    ((Keywords.withType options attributes .object).put "additionalProperties" (.obj inner))

/-- The keywords of an annotated reference around those of its target. -/
def referenceKeywords (options : Options) (attributes target : Json.Entries) : Json.Entries :=
  Keywords.annotate attributes ((Keywords.ofLogicalType options attributes).mergeAbsent target)

/-- The keywords of a record around its converted fields. -/
def recordKeywords (options : Options) (qualified : Text) (attributes properties : Json.Entries)
    (required : List Json) : Json.Entries :=
  Keywords.annotate attributes
    (Keywords.recordFrame options qualified attributes properties required)

theorem node_of_array {items : Json} (h : shape schema = .array items attributes) :
    node setup schema enclosing =
      node setup items enclosing >>= (pure ∘ arrayKeywords setup.options attributes) := by
  rw [node]
  split <;> rename_i hs <;> rw [h] at hs <;> cases hs
  rfl

theorem node_of_map {values : Json} (h : shape schema = .map values attributes) :
    node setup schema enclosing =
      node setup values enclosing >>= (pure ∘ mapKeywords setup.options attributes) := by
  rw [node]
  split <;> rename_i hs <;> rw [h] at hs <;> cases hs
  rfl

theorem node_of_reference (h : shape schema = .reference name attributes) :
    node setup schema enclosing =
      typeName setup name enclosing >>= (pure ∘ referenceKeywords setup.options attributes) := by
  rw [node]
  split <;> rename_i hs <;> rw [h] at hs <;> cases hs
  rfl

/-- The conversion of a record that has been entered. -/
def recordBody (setup : Setup) (qualified : Text) (attributes : Json.Entries) :
    Step Json.Entries := do
  let list ← Step.ofExcept (fieldList qualified attributes)
  let (properties, required) ← fields setup qualified list.1 [] []
  let schema := recordKeywords setup.options qualified attributes properties required
  modify (Context.define qualified schema)
  pure schema

theorem node_of_record (h : shape schema = .record name attributes) :
    node setup schema enclosing = (do
      let qualified ← Step.ofExcept (Name.ofNamed name attributes enclosing)
      if (← get).seen.contains qualified then reference setup qualified
      else
        modify (Context.enter qualified attributes)
        recordBody setup qualified attributes) := by
  rw [node]
  split <;> rename_i hs <;> rw [h] at hs <;> cases hs
  rfl

/-- A record that has been entered before is a reference; any other is entered. -/
theorem outcome_record (h : shape schema = .record name attributes) (c : Context) :
    outcome (node setup schema enclosing) c =
      match Name.ofNamed name attributes enclosing with
      | .error fault => (.error fault, c)
      | .ok qualified =>
        if qualified ∈ c.seen then outcome (reference setup qualified) c
        else outcome (recordBody setup qualified attributes) (c.enter qualified attributes) := by
  rw [node_of_record h, outcome_bind, outcome_ofExcept]
  cases Name.ofNamed name attributes enclosing with
  | error fault => rfl
  | ok qualified =>
    show outcome (get >>= fun context => if context.seen.contains qualified then
      reference setup qualified else _) c = _
    rw [outcome_bind, outcome_get]
    by_cases hq : qualified ∈ c.seen
    · simp only [List.contains_eq_mem, hq, decide_true, if_true]
    · simp only [List.contains_eq_mem, hq, decide_false, Bool.false_eq_true, if_false]
      rw [outcome_bind, outcome_modify]

/-- A record is left with its keywords once all its fields have been converted. -/
theorem outcome_recordBody (qualified : Text) (c : Context) :
    outcome (recordBody setup qualified attributes) c =
      match fieldList qualified attributes with
      | .error fault => (.error fault, c)
      | .ok list =>
        match outcome (fields setup qualified list.1 [] []) c with
        | (.error fault, c') => (.error fault, c')
        | (.ok (properties, required), c') =>
          (.ok (recordKeywords setup.options qualified attributes properties required),
            c'.define qualified
              (recordKeywords setup.options qualified attributes properties required)) := by
  unfold recordBody
  rw [outcome_bind, outcome_ofExcept]
  cases fieldList qualified attributes with
  | error fault => rfl
  | ok list =>
    dsimp only
    rw [outcome_bind]
    rcases outcome (fields setup qualified list.1 [] []) c with ⟨result, c'⟩
    cases result with
    | error fault => rfl
    | ok pair => rfl

/-- What the conversion of a record that ends well has done. -/
theorem record_ok {es : Json.Entries} {c c' : Context} (hs : shape schema = .record name attributes)
    (h : outcome (node setup schema enclosing) c = (.ok es, c')) :
    ∃ qualified, Name.ofNamed name attributes enclosing = .ok qualified
      ∧ ((qualified ∈ c.seen ∧ outcome (reference setup qualified) c = (.ok es, c'))
        ∨ (qualified ∉ c.seen ∧ ∃ list made c₁, fieldList qualified attributes = .ok list
          ∧ outcome (fields setup qualified list.1 [] []) (c.enter qualified attributes)
            = (.ok made, c₁)
          ∧ es = recordKeywords setup.options qualified attributes made.1 made.2
          ∧ c' = c₁.define qualified es)) := by
  rw [outcome_record hs] at h
  cases hq : Name.ofNamed name attributes enclosing with
  | error fault =>
    rw [hq] at h
    cases h
  | ok qualified =>
    rw [hq] at h
    dsimp only at h
    refine ⟨qualified, rfl, ?_⟩
    split at h
    · rename_i hseen
      exact .inl ⟨hseen, h⟩
    · rename_i hseen
      rw [outcome_recordBody] at h
      cases hl : fieldList qualified attributes with
      | error fault =>
        rw [hl] at h
        cases h
      | ok list =>
        rw [hl] at h
        dsimp only at h
        rcases hf : outcome (fields setup qualified list.1 [] []) (c.enter qualified attributes)
          with ⟨result, c₁⟩
        rw [hf] at h
        cases result with
        | error fault => cases h
        | ok made =>
          cases h
          exact .inr ⟨hseen, list, made, c₁, rfl, hf, rfl, rfl⟩

end Node

/-! ### Lists of nodes and of fields -/

theorem branches_nil : branches setup [] enclosing = pure [] := by
  rw [branches]

theorem branches_cons (j : Json) (js : List Json) :
    branches setup (j :: js) enclosing =
      node setup j enclosing >>= fun first =>
        branches setup js enclosing >>= (pure ∘ fun rest => .obj first :: rest) := by
  rw [branches]
  rfl

theorem branches_append (before after : List Json) :
    branches setup (before ++ after) enclosing =
      branches setup before enclosing >>= fun first =>
        branches setup after enclosing >>= (pure ∘ fun rest => first ++ rest) := by
  induction before with
  | nil =>
    rw [branches_nil, pure_bind]
    exact (bind_pure _).symm
  | cons j js ih =>
    rw [List.cons_append, branches_cons, branches_cons, ih]
    simp only [bind_assoc, Function.comp_apply, pure_bind, List.cons_append]
    rfl

section Fields

variable {record : Text} {properties : Json.Entries} {required : List Json}

theorem fields_nil :
    fields setup record [] properties required = pure (properties, required) := by
  rw [fields]

theorem fields_of_fault {field : Json} {more : List Json} {fault : Fault}
    (h : fieldParts record field = .error fault) :
    fields setup record (field :: more) properties required = throw fault := by
  rw [fields]
  split <;> rename_i hp <;> rw [h] at hp <;> cases hp
  rfl

theorem fields_cons {field name type : Json} {more : List Json} {attributes : Json.Entries}
    (h : fieldParts record field = .ok (attributes, name, type)) :
    fields setup record (field :: more) properties required = (do
      let property ← node setup type (Name.namespaceOf record)
      let nullable ← Step.ofExcept (isNullable type)
      let added ← Step.ofExcept (addField attributes name nullable property properties required)
      fields setup record more added.1 added.2) := by
  rw [fields]
  split <;> rename_i hp <;> rw [h] at hp <;> cases hp
  rfl

/-- What the conversion of some fields that ends well has done. -/
theorem fields_cons_ok {field : Json} {more : List Json} {made : Json.Entries × List Json}
    {c c' : Context}
    (h : outcome (fields setup record (field :: more) properties required) c = (.ok made, c')) :
    ∃ attributes name type property nullable added c₁,
      fieldParts record field = .ok (attributes, name, type)
        ∧ outcome (node setup type (Name.namespaceOf record)) c = (.ok property, c₁)
        ∧ isNullable type = .ok nullable
        ∧ addField attributes name nullable property properties required = .ok added
        ∧ outcome (fields setup record more added.1 added.2) c₁ = (.ok made, c') := by
  cases hp : fieldParts record field with
  | error fault =>
    rw [fields_of_fault hp] at h
    cases h
  | ok parts =>
    obtain ⟨attributes, name, type⟩ := parts
    rw [fields_cons hp] at h
    obtain ⟨property, c₁, hnode, htail⟩ := bind_ok h
    obtain ⟨nullable, c₂, hn, hadd⟩ := bind_ok htail
    obtain ⟨hnullable, rfl⟩ := ofExcept_ok hn
    obtain ⟨added, c₃, ha, hrest⟩ := bind_ok hadd
    obtain ⟨hadded, rfl⟩ := ofExcept_ok ha
    exact ⟨attributes, name, type, property, nullable, added, c₃, rfl, hnode, hnullable, hadded, hrest⟩

theorem fields_append (before after : List Json) :
    fields setup record (before ++ after) properties required =
      fields setup record before properties required >>= fun made =>
        fields setup record after made.1 made.2 := by
  induction before generalizing properties required with
  | nil =>
    rw [fields_nil, pure_bind]
    rfl
  | cons field more ih =>
    cases hp : fieldParts record field with
    | error fault =>
      rw [List.cons_append, fields_of_fault hp, fields_of_fault hp]
      rfl
    | ok parts =>
      obtain ⟨attributes, name, type⟩ := parts
      rw [List.cons_append, fields_cons hp, fields_cons hp]
      simp only [bind_assoc, ih]

end Fields

end Conversion

namespace Document

/-- The document of a schema is made of what the run of its conversion leaves. -/
theorem ofSchema_eq (options : Options) (schema : Json) :
    ofSchema options schema =
      match run options schema with
      | (.ok root, context) => .ok (.obj ((header options.draft context).merge root))
      | (.error fault, _) => .error fault :=
  rfl

/-- A document consists of the keywords that the run ends with, put over the header. -/
theorem ofSchema_ok {options : Options} {schema document : Json}
    (h : ofSchema options schema = .ok document) :
    ∃ root c, run options schema = (.ok root, c)
      ∧ document = .obj ((header options.draft c).merge root) := by
  rw [ofSchema_eq] at h
  rcases hrun : run options schema with ⟨_ | root, c⟩
  · rw [hrun] at h
    cases h
  · rw [hrun] at h
    exact ⟨root, c, rfl, (Except.ok.inj h).symm⟩

end Document

end AvroJsonSchema
