import AvroJsonSchema.Proofs.Budgets
import AvroJsonSchema.Proofs.Kinds

/-!
# The faults of a conversion

A conversion is meant to fail with a fault of the schema.  Three values of a schema are used unchecked
and fail in another way: a namespace that is no text, the name of a field that is a list or an object,
and a kind that is no text, where a union is not flattened.  Every fault of a conversion is either one
of the schema, or it has such a value as its cause, somewhere in the schema.

* **`Fault.faultClass`**: the class of exceptions that a fault belongs to.
* **`Schema.MisstatesNamespace`**, **`Schema.MisnamesField`**, **`Schema.HidesOddKind`**: the causes.
* **`Conversion.Accounts`**: a fault has its cause in a schema.
* **`Step.FailsFor`**: what holds of every fault of a part of a conversion.
* **`Conversion.failsFor_node`**: every fault of a node has its cause in the node.
* **`Document.faults_of_conversion`**: the same for whole schemas.
-/

namespace AvroJsonSchema

/-! ### Classes -/

/-- The classes of exceptions. -/
inductive FaultClass where
  /-- A schema that cannot be walked. -/
  | schemaParse
  /-- A kind without a counterpart. -/
  | conversion
  /-- An operation on a value of a type that does not have it. -/
  | type
  /-- An attribute of a value that does not have it. -/
  | attribute
  | value
  | registry
  | system
  | unicode
deriving DecidableEq

/-- The class that a fault belongs to. -/
def Fault.faultClass : Fault → FaultClass
  | .schema _ => .schemaParse
  | .notPrimitive _ => .conversion
  | .unusableKey _ => .type
  | .unsearchableName _ => .type
  | .unusableNamespace _ => .type
  | .unqualifiableName _ => .type
  | .uncountableUnion _ => .type
  | .unknownToggle _ => .type
  | .reservedToggle => .type
  | .sourceNotPath => .type
  | .outputNotPath => .type
  | .notADraft _ _ => .attribute
  | .unusableReference _ => .attribute
  | .unknownPreset _ => .value
  | .tooManyDigits _ => .value
  | .invalidVersion _ => .value
  | .unreadableVersion _ => .value
  | .inputWithRegistry => .value
  | .subjectMissing => .value
  | .zeroInPath => .value
  | .registryUnreachable _ _ _ => .registry
  | .registryStatus _ _ _ => .registry
  | .file _ _ => .system
  | .undecodable _ => .unicode
  | .unencodable _ => .unicode

/-! ### Causes -/

namespace Schema

/-- The types of a schema, followed as long as they are objects, end in a value. -/
inductive EndsIn : Json → Json → Prop
  | self {j : Json} : (∀ attributes, j ≠ .obj attributes) → EndsIn j j
  | type {attributes : Json.Entries} {inner j : Json} :
    attributes.attr? "type" = some inner → EndsIn inner j → EndsIn (.obj attributes) j

/-- A definition that needs a namespace for its full name, and states one that is no text, but does
not count as false either. -/
structure MisstatesNamespace (attributes : Json.Entries) : Prop where
  type : ∃ c ∈ definingTypes, attributes.attr? "type" = some (.str c.text)
  name : ∃ name, attributes.attr? "name" = some (.str name) ∧ name.isDotted = false
  space : ∃ j, attributes.attr? "namespace" = some j ∧ (∀ t, j ≠ .str t) ∧ j.isTruthy = true

/-- A record with a field under a name that is a list or an object. -/
structure MisnamesField (attributes : Json.Entries) : Prop where
  isRecord : IsRecord attributes
  field : ∃ (list : List Json) (field : Json.Entries) (name : Json),
    attributes.attr? "fields" = some (.arr list) ∧ .obj field ∈ list
      ∧ field.attr? "name" = some name
      ∧ ((∃ items, name = .arr items) ∨ ∃ entries, name = .obj entries)

/-- A union of null, once or more, and of one other member that ends in a value that is no text, no
list and no object. -/
def HidesOddKind (members : List Json) : Prop :=
  ∃ before member after j, members = before ++ member :: after ∧ before ++ after ≠ []
    ∧ (∀ i ∈ before ++ after, EndsIn i (.str "null")) ∧ EndsIn member j
    ∧ (∀ t, j ≠ .str t) ∧ (∀ items, j ≠ .arr items) ∧ ∀ entries, j ≠ .obj entries

theorem EndsIn.of_plain {j : Json} (h : Plain j) : EndsIn j j := by
  refine .self fun attributes hj => ?_
  rw [hj] at h
  exact h

/-- The kind of a schema is what the schema ends in, but for a list. -/
theorem endsIn_of_kind {schema k : Json} (h : kind schema = .ok k) :
    (EndsIn schema k ∧ Plain k) ∨ k = .str "union" := by
  induction schema using Schema.induction with
  | step schema ih =>
    rcases kind_cases h with ⟨_, -, hk⟩ | ⟨rfl, hp⟩ | ⟨attributes, rfl, ht, hp⟩ | ⟨inner, hs, hk⟩
    · exact .inr hk
    · exact .inl ⟨.of_plain hp, hp⟩
    · exact .inl ⟨.type ht (.of_plain hp), hp⟩
    · rcases ih inner (.inner hs) hk with ⟨he, hp⟩ | hu
      · obtain ⟨attributes, rfl, ht⟩ := fits_of_shape hs (by simp) (by simp) (by simp)
        exact .inl ⟨.type ht he, hp⟩
      · exact .inr hu

/-! ### Faults of the parts -/

/-- A result fails with a fault of the schema if it fails. -/
def Careful {α : Type} (x : Except Fault α) : Prop :=
  ∀ fault, x = .error fault → ∃ f : SchemaFault, fault = .schema f

theorem careful_ok {α : Type} (a : α) : Careful (.ok a : Except Fault α) := by
  intro fault h
  cases h

theorem careful_error {α : Type} (f : SchemaFault) : Careful (.error (.schema f) : Except Fault α) := by
  intro fault h
  cases h
  exact ⟨f, rfl⟩

theorem Careful.bind {α β : Type} {x : Except Fault α} {f : α → Except Fault β} (hx : Careful x)
    (hf : ∀ a, Careful (f a)) : Careful (x >>= f) := by
  cases x with
  | error fault =>
    intro fault' h
    cases h
    exact hx fault rfl
  | ok a => exact hf a

theorem Careful.map {α β : Type} {x : Except Fault α} (hx : Careful x) (f : α → β) :
    Careful (x.map f) := by
  cases x with
  | error fault =>
    intro fault' h
    cases h
    exact hx fault rfl
  | ok a => exact careful_ok _

theorem careful_require (attributes : Json.Entries) (wanted place : Text) :
    Careful (require attributes wanted place) := by
  unfold require
  split
  · exact careful_ok _
  · exact careful_error _

theorem careful_kind (schema : Json) : Careful (kind schema) := by
  induction schema using Schema.induction with
  | step schema ih =>
    by_cases hp : Plain schema
    · rw [kind_of_plain hp]
      exact careful_ok _
    cases schema with
    | arr members =>
      rw [kind_arr]
      exact careful_ok _
    | obj attributes =>
      cases ht : Json.Entries.attr? "type" attributes with
      | none =>
        rw [kind_of_untyped ht]
        exact careful_error _
      | some j =>
        rw [kind_of_type ht]
        by_cases hj : Plain j
        · rw [kind_of_plain hj]
          exact careful_ok _
        · exact ih j (.inner (shape_of_inner ht hj))
    | _ => exact absurd trivial hp

theorem careful_anyNull (members : List Json) : Careful (anyNull members) := by
  induction members with
  | nil => exact careful_ok _
  | cons j js ih =>
    refine (careful_kind j).bind fun k => ?_
    split
    · exact careful_ok _
    · exact ih

theorem careful_isNullable (schema : Json) : Careful (isNullable schema) := by
  induction schema using Schema.induction with
  | step schema ih =>
    rw [isNullable.eq_def]
    split
    · exact careful_anyNull _
    · split
      · exact careful_anyNull _
      · rename_i inner ht
        exact ih _ (.inner (shape_of_inner ht id))
      · exact (careful_kind _).map _
    · exact careful_ok _

end Schema

namespace Conversion

open Schema Step

theorem careful_nonNull (members : List Json) : Careful (nonNull members) := by
  induction members with
  | nil => exact careful_ok _
  | cons j js ih => exact (careful_kind j).bind fun k => ih.bind fun rest => careful_ok _

theorem careful_fieldParts (record : Text) (field : Json) : Careful (fieldParts record field) := by
  cases field with
  | obj attributes =>
    exact (careful_require _ _ _).bind fun name => (careful_require _ _ _).bind fun type => careful_ok _
  | _ => exact careful_error _

theorem careful_fieldList (qualified : Text) (attributes : Json.Entries) :
    Careful (fieldList qualified attributes) := by
  unfold fieldList
  split
  · exact careful_ok _
  · exact careful_error _
  · exact careful_error _

theorem careful_leafKeywords (options : Options) (kind : Leaf) (qualified : Text)
    (attributes : Json.Entries) : Careful (leafKeywords options kind qualified attributes) := by
  cases kind with
  | fixed => exact careful_ok _
  | enum =>
    refine (careful_require _ _ _).bind fun symbols => ?_
    split
    · exact careful_ok _
    · exact careful_error _

theorem careful_resolve (c : Context) (name enclosing : Text) : Careful (c.resolve name enclosing) := by
  unfold Context.resolve
  split
  · exact careful_ok _
  · exact careful_error _

/-- A namespace cannot be told where it is no text and does not count as false. -/
theorem statedNamespace_fault {enclosing : Text} {attributes : Json.Entries} {fault : Fault}
    (h : Name.statedNamespace attributes enclosing = .error fault) :
    ∃ j, fault = .unusableNamespace j ∧ attributes.attr? "namespace" = some j
      ∧ (∀ t, j ≠ .str t) ∧ j.isTruthy = true := by
  unfold Name.statedNamespace at h
  split at h
  · cases h
  · cases h
  · rename_i j hstr hj
    split at h
    · rename_i ht
      cases h
      exact ⟨j, rfl, hj, hstr, ht⟩
    · cases h

/-- A definition without a full name misstates its namespace. -/
theorem misstates_of_fault {name enclosing : Text} {attributes : Json.Entries} {fault : Fault}
    (ht : ∃ c ∈ definingTypes, attributes.attr? "type" = some (.str c.text))
    (hn : attributes.attr? "name" = some (.str name))
    (h : Name.ofNamed name attributes enclosing = .error fault) :
    MisstatesNamespace attributes ∧ ∃ j, fault = .unusableNamespace j := by
  cases hd : name.isDotted with
  | true =>
    rw [Name.ofNamed_of_dotted hd] at h
    cases h
  | false =>
    rw [Name.ofNamed_of_undotted hd] at h
    cases hs : Name.statedNamespace attributes enclosing with
    | ok space =>
      rw [hs] at h
      cases h
    | error fault' =>
      rw [hs] at h
      cases h
      obtain ⟨j, rfl, hj⟩ := statedNamespace_fault hs
      exact ⟨⟨ht, ⟨name, hn, hd⟩, j, hj⟩, j, rfl⟩

/-- A field that cannot be added has a name that is a list or an object. -/
theorem addField_fault {attributes property properties : Json.Entries} {name : Json}
    {nullable : Bool} {required : List Json} {fault : Fault}
    (h : addField attributes name nullable property properties required = .error fault) :
    fault = .unusableKey name ∧ ((∃ items, name = .arr items) ∨ ∃ entries, name = .obj entries) := by
  unfold addField at h
  cases name with
  | arr items =>
    cases h
    exact ⟨rfl, .inl ⟨items, rfl⟩⟩
  | obj entries =>
    cases h
    exact ⟨rfl, .inr ⟨entries, rfl⟩⟩
  | _ => cases h

theorem endsIn_null {j : Json} (h : kind j = .ok (.str "null")) : EndsIn j (.str "null") := by
  rcases endsIn_of_kind h with ⟨he, -⟩ | hu
  · exact he
  · exact absurd (Json.str.inj hu) (by decide)

/-- A union hides an odd kind where the kind of its one other member is no text. -/
theorem hidesOddKind_of_unionForm {members : List Json} {member k : Json}
    (h : unionForm members = .nullable member) (hk : kind member = .ok k) (hstr : ∀ t, k ≠ .str t) :
    HidesOddKind members := by
  obtain ⟨before, after, rfl, hnulls⟩ := split_of_nonNull (nonNull_of_unionForm h)
  obtain ⟨he, hp⟩ := (endsIn_of_kind hk).resolve_right (hstr _)
  refine ⟨before, member, after, k, rfl, fun hnone => ?_, fun i hi => endsIn_null (hnulls i hi), he,
    hstr, ?_, ?_⟩
  · obtain ⟨rfl, rfl⟩ := List.append_eq_nil_iff.1 hnone
    exact length_of_unionForm h rfl
  · rintro items rfl
    exact hp
  · rintro entries rfl
    exact hp

/-- A fault has its cause in a schema. -/
inductive Accounts (options : Options) (schema : Json) : Fault → Prop
  | schema (f : SchemaFault) : Accounts options schema (.schema f)
  | space {attributes : Json.Entries} (j : Json) :
    Below (.obj attributes) schema → MisstatesNamespace attributes →
      Accounts options schema (.unusableNamespace j)
  | field {attributes : Json.Entries} (j : Json) :
    Below (.obj attributes) schema → MisnamesField attributes →
      Accounts options schema (.unusableKey j)
  | kind {members : List Json} (j : Json) :
    options.flattenNullableUnions = false → Below (.arr members) schema → HidesOddKind members →
      Accounts options schema (.unusableReference j)

theorem Accounts.above {options : Options} {schema j : Json} {fault : Fault} (hj : Child j schema)
    (h : Accounts options j fault) : Accounts options schema fault := by
  cases h with
  | schema f => exact .schema f
  | space i hb hm => exact .space i (.child hj hb) hm
  | field i hb hm => exact .field i (.child hj hb) hm
  | kind i hf hb hm => exact .kind i hf (.child hj hb) hm

theorem Accounts.of_careful {options : Options} {schema : Json} {α : Type} {x : Except Fault α}
    (h : Careful x) : ∀ fault, x = .error fault → Accounts options schema fault := by
  intro fault hx
  obtain ⟨f, rfl⟩ := h fault hx
  exact .schema f

end Conversion

/-! ### Faults of a conversion -/

namespace Step

variable {α β : Type} {P Q : Fault → Prop}

/-- Every fault of a part of a conversion has a property, from every context that keeps the
invariant. -/
def FailsFor (P : Fault → Prop) (x : Step α) : Prop :=
  ∀ c fault, c.Sound → (outcome x c).1 = .error fault → P fault

theorem FailsFor.mono {x : Step α} (h : FailsFor P x) (hPQ : ∀ fault, P fault → Q fault) :
    FailsFor Q x :=
  fun c fault hc hx => hPQ fault (h c fault hc hx)

theorem FailsFor.pure (a : α) : FailsFor P (pure a : Step α) := by
  intro c fault hc h
  cases h

theorem FailsFor.throw {fault : Fault} (h : P fault) : FailsFor P (throw fault : Step α) := by
  intro c fault' hc hx
  cases hx
  exact h

theorem FailsFor.ofExcept {x : Except Fault α} (h : ∀ fault, x = .error fault → P fault) :
    FailsFor P (ofExcept x) := by
  intro c fault hc hx
  rw [outcome_ofExcept] at hx
  exact h fault hx

theorem FailsFor.bind {x : Step α} {f : α → Step β} (hx : FailsFor P x) (he : Evolving x)
    (hf : ∀ a, FailsFor P (f a)) : FailsFor P (x >>= f) := by
  intro c fault hc h
  obtain ⟨unfinished, hsound, -⟩ := he c hc
  rw [outcome_bind] at h
  rcases ho : outcome x c with ⟨result, c'⟩
  rw [ho] at h hsound
  cases result with
  | error fault' =>
    cases h
    exact hx c fault hc (congrArg Prod.fst ho)
  | ok a => exact hf a c' fault hsound.sound h

theorem FailsFor.map {x : Step α} (hx : FailsFor P x) (he : Evolving x) (g : α → β) :
    FailsFor P (x >>= Pure.pure ∘ g) :=
  hx.bind he fun a => .pure (g a)

end Step

namespace Conversion

open Schema Step

variable {options : Options} {enclosing : Text}

theorem failsFor_reference (P : Fault → Prop) (name : Text) :
    FailsFor P (reference options.setup name) := by
  intro c fault hc h
  rw [outcome_reference] at h
  cases h

theorem failsFor_leaf {kind : Leaf} {name : Text} {attributes : Json.Entries}
    (hs : shape (.obj attributes) = .leaf kind name attributes) :
    FailsFor (Accounts options (.obj attributes))
      (leaf options kind name attributes enclosing) := by
  obtain ⟨-, hn, ht⟩ := objectShape_leaf hs
  intro c fault hc h
  rw [outcome_leaf] at h
  cases hq : Name.ofNamed name attributes enclosing with
  | error fault' =>
    rw [hq] at h
    cases h
    have hdefines : ∃ d ∈ definingTypes, attributes.attr? "type" = some (.str d.text) :=
      ⟨kind.complex, by cases kind <;> decide, ht⟩
    obtain ⟨hm, j, rfl⟩ := misstates_of_fault hdefines hn hq
    exact .space j (.self _) hm
  | ok qualified =>
    rw [hq] at h
    exact .of_careful ((careful_leafKeywords _ _ _ _).map _) fault h

/-- A name fails with a fault of the schema alone: the definition that is stored under it has a full
name. -/
theorem failsFor_typeName (schema : Json) (name : Text) :
    FailsFor (Accounts options schema) (typeName options.setup name enclosing) := by
  intro c fault hc h
  cases hp : Primitive.ofText? name with
  | some p =>
    rw [outcome_typeName, hp] at h
    cases h
  | none =>
    cases hr : c.resolve name enclosing with
    | error fault' =>
      rw [outcome_typeName, hp, hr] at h
      cases h
      exact .of_careful (careful_resolve _ _ _) _ hr
    | ok qualified =>
      by_cases hq : qualified ∈ c.seen
      · rw [outcome_typeName, hp, hr] at h
        dsimp only at h
        rw [if_pos hq] at h
        exact failsFor_reference _ qualified c fault hc h
      · obtain ⟨kind, n, attributes, ha, hs⟩ := Bounded.stored_of_unseen hc hr hq
        have hmem := Table.mem_of_get?_eq_some (Table.sharp_of_lawful _) ha
        have hfull := ofNamed_of_full (objectShape_leaf hs).2.1 (hc.named_defines _ _ hmem).requalified
        rw [outcome_typeName_of_unseen hc hp hr hq ha, node_of_leaf hs, outcome_leaf, hfull] at h
        exact .of_careful ((careful_leafKeywords _ _ _ _).map _) fault h

theorem failsFor_branches {P : Fault → Prop} {nodes : List Json}
    (h : ∀ j ∈ nodes, FailsFor P (node options.setup j enclosing)) :
    FailsFor P (branches options.setup nodes enclosing) := by
  induction nodes with
  | nil =>
    rw [branches_nil]
    exact .pure _
  | cons j js ih =>
    rw [branches_cons]
    refine (h j List.mem_cons_self).bind (evolving_node _ _) fun first => ?_
    refine (ih fun i hi => h i (List.mem_cons_of_mem _ hi)).map ?_ _
    exact evolving_branches fun i _ => evolving_node i

/-- The kind of a member that is looked at before the member is converted can be odd. -/
theorem failsFor_resolveKind {members : List Json} {member : Json}
    (hu : unionForm members = .nullable member) (hf : options.flattenNullableUnions = false) :
    FailsFor (Accounts options (.arr members))
      (Step.inspect (Context.resolveKind · member enclosing)) := by
  intro c fault hc h
  rw [outcome_inspect] at h
  obtain ⟨k, hk⟩ := kind_of_unionForm hu
  rcases resolveKind_cases hc enclosing hk with
    ⟨_, _, -, -, hr⟩ | ⟨_, hr, -⟩ | ⟨t, _, fault', -, -, -, hresolve, hr⟩ | ⟨hstr, hr⟩ <;>
    rw [hr] at h <;> cases h
  · exact .of_careful (careful_resolve _ _ _) _ hresolve
  · exact .kind k hf (.self _) (hidesOddKind_of_unionForm hu hk hstr)

theorem failsFor_union {members : List Json}
    (h : ∀ j ∈ members, FailsFor (Accounts options (.arr members)) (node options.setup j enclosing)) :
    FailsFor (Accounts options (.arr members)) (union options.setup members enclosing) := by
  cases hu : unionForm members with
  | fault fault =>
    rw [union_of_fault hu]
    exact .throw (.of_careful (careful_nonNull members) fault (nonNull_of_unionForm_fault hu))
  | choice =>
    rw [union_of_choice hu]
    exact (failsFor_branches h).map (evolving_branches fun i _ => evolving_node i) _
  | nullable member =>
    have hmember := h member (mem_of_unionForm hu)
    rw [union_of_nullable hu]
    by_cases hf : options.setup.options.flattenNullableUnions = true
    · rw [if_pos hf]
      exact hmember
    · rw [if_neg hf]
      refine (failsFor_resolveKind hu (Bool.eq_false_iff.2 hf)).bind (.inspect _) fun kind => ?_
      cases primitiveOfKind? kind with
      | some p => exact .pure _
      | none => exact hmember.map (evolving_node _ _) _

theorem failsFor_fields {P : Fault → Prop} {record : Text} {list : List Json}
    (hs : ∀ f : SchemaFault, P (.schema f))
    (h : ∀ field ∈ list, ∀ attributes name type,
      fieldParts record field = .ok (attributes, name, type) →
        FailsFor P (node options.setup type (Name.namespaceOf record))
          ∧ (((∃ items, name = .arr items) ∨ ∃ entries, name = .obj entries) → P (.unusableKey name)))
    (properties : Json.Entries) (required : List Json) :
    FailsFor P (fields options.setup record list properties required) := by
  have careful : ∀ {α : Type} {x : Except Fault α}, Careful x → FailsFor P (Step.ofExcept x) := by
    intro α x hx
    refine .ofExcept fun fault hfault => ?_
    obtain ⟨f, rfl⟩ := hx fault hfault
    exact hs f
  induction list generalizing properties required with
  | nil =>
    rw [fields_nil]
    exact .pure _
  | cons field more ih =>
    cases hp : fieldParts record field with
    | error fault =>
      rw [fields_of_fault hp]
      obtain ⟨f, rfl⟩ := careful_fieldParts record field fault hp
      exact .throw (hs f)
    | ok parts =>
      obtain ⟨attributes, name, type⟩ := parts
      obtain ⟨htype, hname⟩ := h field List.mem_cons_self _ _ _ hp
      rw [fields_cons hp]
      refine htype.bind (evolving_node _ _) fun property => ?_
      refine (careful (careful_isNullable type)).bind (.ofExcept _) fun nullable => ?_
      refine FailsFor.bind (.ofExcept fun fault hfault => ?_) (.ofExcept _) fun added => ?_
      · obtain ⟨rfl, hj⟩ := addField_fault hfault
        exact hname hj
      · exact ih (fun f hf => h f (List.mem_cons_of_mem _ hf)) _ _

theorem failsFor_record {schema : Json} {name : Text} {attributes : Json.Entries}
    (hs : shape schema = .record name attributes)
    (h : ∀ j, Child j schema → ∀ enclosing,
      FailsFor (Accounts options schema) (node options.setup j enclosing)) :
    FailsFor (Accounts options schema) (node options.setup schema enclosing) := by
  obtain ⟨rfl, hn, hrecord⟩ := isRecord_of_shape hs
  intro c fault hc hx
  rw [outcome_record hs] at hx
  cases hq : Name.ofNamed name attributes enclosing with
  | error fault' =>
    rw [hq] at hx
    cases hx
    have hdefines : ∃ d ∈ definingTypes, attributes.attr? "type" = some (.str d.text) := by
      rcases hrecord with ht | ht
      · exact ⟨.record, by decide, ht⟩
      · exact ⟨.error, by decide, ht⟩
    obtain ⟨hm, j, rfl⟩ := misstates_of_fault hdefines hn hq
    exact .space j (.self _) hm
  | ok qualified =>
    rw [hq] at hx
    dsimp only at hx
    by_cases hseen : qualified ∈ c.seen
    · rw [if_pos hseen] at hx
      exact failsFor_reference _ qualified c fault hc hx
    · rw [if_neg hseen, outcome_recordBody] at hx
      cases hl : fieldList qualified attributes with
      | error fault' =>
        rw [hl] at hx
        cases hx
        exact .of_careful (careful_fieldList _ _) _ hl
      | ok list =>
        rw [hl] at hx
        have hfields : FailsFor (Accounts options (.obj attributes))
            (fields options.setup qualified list.1 [] []) := by
          refine failsFor_fields .schema (fun field hf es n type hp => ⟨?_, fun hodd => ?_⟩) [] []
          · exact h type (child_of_field hs (fieldList_ok hl) hf hp) _
          · obtain ⟨rfl, hname, -⟩ := fieldParts_ok hp
            exact .field n (.self _) ⟨hrecord, list.1, es, n, fieldList_ok hl, hf, hname, hodd⟩
        have hsound := hc.enter (defines_of_record hs hq) hseen
        dsimp only at hx
        rcases ho : outcome (fields options.setup qualified list.1 [] []) (c.enter qualified attributes)
          with ⟨result, c'⟩
        rw [ho] at hx
        cases result with
        | ok made => cases hx
        | error fault' =>
          cases hx
          exact hfields _ fault hsound (congrArg Prod.fst ho)

/-- **Every fault of a node has its cause in the node.** -/
theorem failsFor_node (schema : Json) (enclosing : Text) :
    FailsFor (Accounts options schema) (node options.setup schema enclosing) := by
  induction schema using Schema.induction generalizing enclosing with
  | step schema ih =>
    have below : ∀ j, Child j schema → ∀ enclosing,
        FailsFor (Accounts options schema) (node options.setup j enclosing) :=
      fun j hj inner => (ih j hj inner).mono fun fault => .above hj
    cases hs : shape schema with
    | malformed fault =>
      rw [node_of_malformed hs]
      exact .throw (.schema fault)
    | union members =>
      have hmembers : ∀ j ∈ members, Child j schema := fun j hj => .member hs hj
      rw [node_of_union hs]
      rw [eq_arr_of_shape hs] at below hmembers ⊢
      exact failsFor_union fun j hj => below j (hmembers j hj) enclosing
    | name name =>
      rw [node_of_name hs]
      exact failsFor_typeName schema name
    | wrapper inner =>
      rw [node_of_wrapper hs]
      exact below inner (.inner hs) enclosing
    | primitive p attributes =>
      rw [node_of_primitive hs]
      exact .pure _
    | leaf kind name attributes =>
      obtain ⟨es, rfl, rfl⟩ := fits_of_shape hs (by simp) (by simp) (by simp)
      rw [node_of_leaf hs]
      exact failsFor_leaf hs
    | array items attributes =>
      rw [node_of_array hs]
      exact (below items (.items hs) enclosing).map (evolving_node _ _) _
    | map values attributes =>
      rw [node_of_map hs]
      exact (below values (.values hs) enclosing).map (evolving_node _ _) _
    | reference name attributes =>
      rw [node_of_reference hs]
      exact (failsFor_typeName schema name).map (evolving_typeName _) _
    | record name attributes => exact failsFor_record hs below

end Conversion

namespace Document

open Schema Conversion

/-- A schema has no document where its conversion fails, for the same reason. -/
theorem ofSchema_fault (options : Options) (schema : Json) (fault : Fault) :
    ofSchema options schema = .error fault ↔
      (Step.outcome (node options.setup schema []) Context.empty).1 = .error fault := by
  have hrun : run options.setup schema =
      Step.outcome (node options.setup schema []) Context.empty := rfl
  rw [ofSchema_eq, hrun]
  rcases Step.outcome (node options.setup schema []) Context.empty with ⟨result, c⟩
  cases result <;> simp

/-- **Which faults a conversion has.**  Under all options, a schema has a document or a fault of three
classes.  Where the conversion is spelled out, it never lacks a definition or the budget, and so ends
with that fault; no kind is without a counterpart.  A fault of a type has its cause in a namespace that
is no text, or in the name of a field that is a list or an object; a fault of an attribute has its cause
in a union that is not flattened, with an odd kind.  Any other fault is one of the schema. -/
theorem faults_of_conversion (options : Options) (schema : Json) :
    (∀ (budget : Nat) (halt : Halt), schema.depth + 2 ≤ budget →
        (Attempt.outcome (Bounded.node options.setup budget schema []) Context.empty).1 = .error halt →
        ∃ fault, halt = .fault fault ∧ ofSchema options schema = .error fault)
      ∧ ∀ fault : Fault, ofSchema options schema = .error fault →
        (fault.faultClass = .schemaParse ∨ fault.faultClass = .type ∨ fault.faultClass = .attribute)
          ∧ (fault.faultClass = .type → ∃ attributes, Below (.obj attributes) schema
            ∧ (MisstatesNamespace attributes ∨ MisnamesField attributes))
          ∧ (fault.faultClass = .attribute → options.flattenNullableUnions = false
            ∧ ∃ members, Below (.arr members) schema ∧ HidesOddKind members) := by
  refine ⟨fun budget halt hb hx => ?_, fun fault h => ?_⟩
  · have hends := Bounded.does_node options.setup schema [] hb _ .empty
    obtain ⟨fault, rfl, hy⟩ := hends.halts_by_fault hx
    exact ⟨fault, rfl, (ofSchema_fault options schema fault).2 hy⟩
  · have hcause := failsFor_node schema [] _ fault .empty ((ofSchema_fault options schema fault).1 h)
    cases hcause with
    | schema f => exact ⟨.inl rfl, fun ht => (by cases ht), fun ht => (by cases ht)⟩
    | space j hb hm => exact ⟨.inr (.inl rfl), fun _ => ⟨_, hb, .inl hm⟩, fun ht => (by cases ht)⟩
    | field j hb hm => exact ⟨.inr (.inl rfl), fun _ => ⟨_, hb, .inr hm⟩, fun ht => (by cases ht)⟩
    | kind j hf hb hm => exact ⟨.inr (.inr rfl), fun ht => (by cases ht), fun _ => ⟨hf, _, hb, hm⟩⟩

/-- A record in a namespace that is a number. -/
def numberedSpace : Json :=
  .obj [(.text "type", "record"), (.text "name", "R"), (.text "namespace", .int 5),
    (.text "fields", .arr [])]

/-- A union of null and of an object whose type is a number. -/
def numberedType : Json :=
  .arr ["null", .obj [(.text "type", .int 5)]]

theorem faults_of_conversion_numbered :
    (∃ fault, ofSchema Options.strict numberedSpace = .error fault ∧ fault.faultClass = .type
        ∧ ∃ attributes, Below (.obj attributes) numberedSpace
          ∧ (MisstatesNamespace attributes ∨ MisnamesField attributes))
      ∧ ∃ fault, ofSchema Options.strict numberedType = .error fault ∧ fault.faultClass = .attribute
        ∧ ∃ members, Below (.arr members) numberedType ∧ HidesOddKind members := by
  constructor
  · obtain ⟨hhalts, hcauses⟩ := faults_of_conversion Options.strict numberedSpace
    obtain ⟨fault, hfault, h⟩ := hhalts 4 (.fault (.unusableNamespace (.int 5))) (by decide) rfl
    cases hfault
    exact ⟨_, h, rfl, (hcauses _ h).2.1 rfl⟩
  · obtain ⟨-, hcauses⟩ := faults_of_conversion Options.strict numberedType
    have hclass : (match ofSchema Options.strict numberedType with
        | .ok _ => none
        | .error fault => some fault.faultClass) = some .attribute := by
      decide +kernel
    cases h : ofSchema Options.strict numberedType with
    | ok document =>
      rw [h] at hclass
      cases hclass
    | error fault =>
      rw [h] at hclass
      have hc := Option.some.inj hclass
      exact ⟨fault, rfl, hc, ((hcauses fault h).2.2 hc).2⟩

end Document

end AvroJsonSchema
