import AvroJsonSchema.Proofs.Kinds

/-!
# What is accepted under any options

The options shape a document, and decide nothing about which schemas have one: two conversions of a
schema under different options go the same way, enter, leave and name the same types in the same
order, and fail at the same node with the same fault.  There is one exception.  A union of null and
another type that is not flattened asks for the kind of that type first, and where the kind is no
text it fails a step earlier, with a fault of its own.

* **`Context.Alike`**: two contexts differ in what the definitions hold alone.
* **`Step.Agree`**: two parts end alike from contexts that are alike.
* **`Conversion.agree_node`**: the conversions of a node under two options agree.
* **`Document.accepted_under_all_options`**: the same for whole schemas.
-/

namespace AvroJsonSchema

namespace Context

/-- Two contexts differ in what the definitions hold alone. -/
structure Alike (c d : Context) : Prop where
  seen : c.seen = d.seen
  named : c.named = d.named
  definitions : c.definitions.keys = d.definitions.keys

theorem Alike.symm {c d : Context} (h : c.Alike d) : d.Alike c :=
  ⟨h.seen.symm, h.named.symm, h.definitions.symm⟩

theorem Alike.sound {c d : Context} (h : c.Alike d) (hc : c.Sound) : d.Sound where
  defined_seen := by
    rw [← h.definitions, ← h.seen]
    exact hc.defined_seen
  seen_named := by
    rw [← h.seen, ← h.named]
    exact hc.seen_named
  named_defines := by
    rw [← h.named]
    exact hc.named_defines
  record_seen := by
    rw [← h.named, ← h.seen]
    exact hc.record_seen
  seen_nodup := h.seen ▸ hc.seen_nodup
  definitions_nodup := h.definitions ▸ hc.definitions_nodup
  named_nodup := h.named ▸ hc.named_nodup

theorem Alike.addNamed {c d : Context} (h : c.Alike d) (q : Text) (attributes : Json.Entries) :
    (c.addNamed q attributes).Alike (d.addNamed q attributes) :=
  ⟨h.seen, congrArg (Table.set q attributes) h.named, h.definitions⟩

theorem Alike.enter {c d : Context} (h : c.Alike d) (q : Text) (attributes : Json.Entries) :
    (c.enter q attributes).Alike (d.enter q attributes) :=
  ⟨congrArg (· ++ [q]) h.seen, congrArg (Table.set q attributes) h.named, h.definitions⟩

theorem Alike.define {c d : Context} (h : c.Alike d) (q : Text) (v w : Json.Entries) :
    (c.define q v).Alike (d.define q w) :=
  ⟨h.seen, h.named, Table.keys_set_congr h.definitions q v w⟩

theorem Alike.resolve {c d : Context} (h : c.Alike d) (name enclosing : Text) :
    c.resolve name enclosing = d.resolve name enclosing := by
  unfold Context.resolve
  rw [h.named]

theorem Alike.resolveKind {c d : Context} (h : c.Alike d) (schema : Json) (enclosing : Text) :
    c.resolveKind schema enclosing = d.resolveKind schema enclosing := by
  unfold Context.resolveKind
  simp only [h.resolve, h.named]

end Context

namespace Step

variable {α β γ δ : Type}

/-- Two outcomes are alike: both end well in contexts that are alike, or both fail with faults in a
relation. -/
inductive AlikeOutcomes (R : Fault → Fault → Prop) :
    Except Fault α × Context → Except Fault β × Context → Prop
  | ok {a : α} {b : β} {c d : Context} : c.Alike d → AlikeOutcomes R (.ok a, c) (.ok b, d)
  | error {f g : Fault} {c d : Context} : R f g → AlikeOutcomes R (.error f, c) (.error g, d)

/-- Two parts of conversions end alike from contexts that are alike. -/
def Agree (R : Fault → Fault → Prop) (x : Step α) (y : Step β) : Prop :=
  ∀ c d, c.Sound → c.Alike d → AlikeOutcomes R (outcome x c) (outcome y d)

variable {R : Fault → Fault → Prop}

theorem Agree.symm {S : Fault → Fault → Prop} (hRS : ∀ f g, R f g → S g f) {x : Step α}
    {y : Step β} (h : Agree R x y) : Agree S y x := by
  intro d c hd hdc
  have ha := h c d (hdc.sound hd) hdc.symm
  revert ha
  generalize outcome x c = p
  generalize outcome y d = q
  intro ha
  cases ha with
  | ok hcd => exact .ok hcd.symm
  | error hfg => exact .error (hRS _ _ hfg)

theorem Agree.pure (a : α) (b : β) : Agree R (pure a : Step α) (pure b : Step β) :=
  fun _ _ _ hcd => .ok hcd

theorem Agree.throw {f g : Fault} (h : R f g) :
    Agree R (throw f : Step α) (throw g : Step β) :=
  fun _ _ _ _ => .error h

theorem Agree.bind {x : Step α} {y : Step β} {f : α → Step γ} {g : β → Step δ} (hx : Evolving x)
    (hxy : Agree R x y) (hfg : ∀ a b, Agree R (f a) (g b)) : Agree R (x >>= f) (y >>= g) := by
  intro c d hc hcd
  obtain ⟨unfinished, he, -⟩ := hx c hc
  have ha := hxy c d hc hcd
  rw [outcome_bind, outcome_bind]
  revert he ha
  generalize outcome x c = p
  generalize outcome y d = q
  intro he ha
  cases ha with
  | ok hcd' => exact hfg _ _ _ _ he.sound hcd'
  | error hR => exact .error hR

/-- Two parts that go on from one value agree if they do for each such value. -/
theorem Agree.bind_same (hR : ∀ f, R f f) (x : Except Fault α) {f : α → Step γ} {g : α → Step δ}
    (hfg : ∀ a, Agree R (f a) (g a)) : Agree R (ofExcept x >>= f) (ofExcept x >>= g) := by
  intro c d hc hcd
  rw [outcome_bind, outcome_bind, outcome_ofExcept, outcome_ofExcept]
  cases x with
  | error fault => exact .error (hR fault)
  | ok a => exact hfg a c d hc hcd

theorem Agree.map {x : Step α} {y : Step β} {f : α → γ} {g : β → δ} (hx : Evolving x)
    (hxy : Agree R x y) : Agree R (x >>= Pure.pure ∘ f) (y >>= Pure.pure ∘ g) :=
  hxy.bind hx fun _ _ => .pure _ _

end Step

namespace Conversion

open Schema Step

/-- The fault of an unflattened union and the one of the same union when it is flattened, where the
kind of its member is a value that is no text. -/
def OddReference (f g : Fault) : Prop :=
  ∃ j, f = .unusableReference j ∧ ∃ fault ∈ oddFaults j, g = .schema fault

/-- How the faults of two conversions of one schema may differ. -/
def FaultsAgree (o₁ o₂ : Options) (f g : Fault) : Prop :=
  f = g
    ∨ (o₁.flattenNullableUnions = false ∧ o₂.flattenNullableUnions = true ∧ OddReference f g)
    ∨ (o₁.flattenNullableUnions = true ∧ o₂.flattenNullableUnions = false ∧ OddReference g f)

theorem FaultsAgree.symm {o₁ o₂ : Options} {f g : Fault} (h : FaultsAgree o₁ o₂ f g) :
    FaultsAgree o₂ o₁ g f := by
  rcases h with h | ⟨h₁, h₂, h⟩ | ⟨h₁, h₂, h⟩
  · exact .inl h.symm
  · exact .inr (.inr ⟨h₂, h₁, h⟩)
  · exact .inr (.inl ⟨h₂, h₁, h⟩)

variable {o₁ o₂ : Options} {enclosing : Text}

theorem agree_reference (name : Text) :
    Agree (FaultsAgree o₁ o₂) (reference o₁ name) (reference o₂ name) := by
  intro c d _ hcd
  rw [outcome_reference, outcome_reference]
  exact .ok hcd

/-- Whether the keywords of an enum or a fixed type can be told does not hang on the options. -/
theorem leafKeywords_agree (o₁ o₂ : Options) (kind : Leaf) (qualified : Text)
    (attributes : Json.Entries) :
    (∃ v w, leafKeywords o₁ kind qualified attributes = .ok v
        ∧ leafKeywords o₂ kind qualified attributes = .ok w)
      ∨ ∃ fault, leafKeywords o₁ kind qualified attributes = .error fault
        ∧ leafKeywords o₂ kind qualified attributes = .error fault := by
  cases kind with
  | fixed => exact .inl ⟨_, _, rfl, rfl⟩
  | enum =>
    unfold leafKeywords enumKeywords
    cases require attributes "symbols" [] with
    | error fault => exact .inr ⟨fault, rfl, rfl⟩
    | ok symbols =>
      simp only [bind, Except.bind]
      cases Keywords.symbols? symbols with
      | none => exact .inr ⟨_, rfl, rfl⟩
      | some items => exact .inl ⟨_, _, rfl, rfl⟩

theorem agree_leaf (kind : Leaf) (name : Text) (attributes : Json.Entries) :
    Agree (FaultsAgree o₁ o₂) (leaf o₁ kind name attributes enclosing)
      (leaf o₂ kind name attributes enclosing) := by
  intro c d _ hcd
  rw [outcome_leaf, outcome_leaf]
  cases Name.ofNamed name attributes enclosing with
  | error fault => exact .error (.inl rfl)
  | ok qualified =>
    dsimp only
    rcases leafKeywords_agree o₁ o₂ kind qualified attributes with ⟨v, w, hv, hw⟩ | ⟨f, hv, hw⟩
    · rw [hv, hw]
      refine .ok ?_
      split
      · exact hcd
      · exact hcd.addNamed _ _
    · rw [hv, hw]
      exact .error (.inl rfl)

theorem agree_typeName (name : Text) :
    Agree (FaultsAgree o₁ o₂) (typeName o₁ name enclosing) (typeName o₂ name enclosing) := by
  intro c d hc hcd
  rw [outcome_typeName, outcome_typeName, ← hcd.resolve, ← hcd.seen, ← hcd.named]
  cases Primitive.ofText? name with
  | some p => exact .ok hcd
  | none =>
    dsimp only
    cases c.resolve name enclosing with
    | error fault => exact .error (.inl rfl)
    | ok qualified =>
      dsimp only
      split
      · exact agree_reference qualified c d hc hcd
      · cases objectShape ((c.named.get? qualified).getD []) with
        | leaf kind n attributes => exact agree_leaf kind n attributes c d hc hcd
        | _ => exact agree_reference qualified c d hc hcd

theorem agree_branches {nodes : List Json}
    (h : ∀ j ∈ nodes, ∀ enclosing,
      Agree (FaultsAgree o₁ o₂) (node o₁ j enclosing) (node o₂ j enclosing)) :
    Agree (FaultsAgree o₁ o₂) (branches o₁ nodes enclosing) (branches o₂ nodes enclosing) := by
  induction nodes with
  | nil =>
    rw [branches_nil, branches_nil]
    exact .pure _ _
  | cons j js ih =>
    rw [branches_cons, branches_cons]
    refine (h j List.mem_cons_self enclosing).bind (evolving_node _ _) fun _ _ => ?_
    refine (ih fun i hi => h i (List.mem_cons_of_mem _ hi)).map ?_
    exact evolving_branches fun i _ => evolving_node i

/-! ### Unions of null and another type -/

/-- An unflattened union that asks for the kind of its member first fails where the conversion of
the member would, and leaves a member out only where its conversion would change nothing. -/
theorem agree_unflattened {members : List Json} {member : Json}
    (hu : unionForm members = .nullable member) (h₁ : o₁.flattenNullableUnions = false)
    (h₂ : o₂.flattenNullableUnions = true)
    (h : Agree (FaultsAgree o₁ o₂) (node o₁ member enclosing) (node o₂ member enclosing)) :
    Agree (FaultsAgree o₁ o₂) (union o₁ members enclosing) (node o₂ member enclosing) := by
  intro c d hc hcd
  have hboth := h c d hc hcd
  obtain ⟨k, hk⟩ := kind_of_unionForm hu
  -- where the member is converted after all, the two conversions of it are compared
  have hconverted : ∀ k', c.resolveKind member enclosing = .ok k' → primitiveOfKind? k' = none →
      AlikeOutcomes (FaultsAgree o₁ o₂) (outcome (union o₁ members enclosing) c)
        (outcome (node o₂ member enclosing) d) := by
    intro k' hr hp
    rw [outcome_union_of_nullable hu h₁, hr]
    simp only [hp]
    revert hboth
    generalize outcome (node o₁ member enclosing) c = p
    generalize outcome (node o₂ member enclosing) d = q
    intro hboth
    cases hboth with
    | ok hcd' => exact .ok hcd'
    | error hf => exact .error hf
  rcases resolveKind_cases hc enclosing hk with
    ⟨t, p, rfl, hp, hr⟩ | ⟨k', hr, hp⟩ | ⟨t, name, fault, rfl, ht, hun, hr, hrk⟩ | ⟨hodd, hr⟩
  · obtain ⟨es, he⟩ := outcome_of_primitive_kind o₂ enclosing d hk hp
    rw [outcome_union_of_nullable hu h₁, hr, he]
    simp only [primitiveOfKind?, hp]
    exact .ok hcd
  · exact hconverted k' hr hp
  · have hd := outcome_of_undefined_kind o₂ enclosing d hk ht hun (hcd.resolve t enclosing ▸ hr)
    rw [outcome_union_of_nullable hu h₁, hrk, hd]
    exact .error (.inl rfl)
  · obtain ⟨fault, hmem, hd⟩ := outcome_of_odd_kind o₂ enclosing d hk hodd
    rw [outcome_union_of_nullable hu h₁, hr, hd]
    exact .error (.inr (.inl ⟨h₁, h₂, k, rfl, fault, hmem, rfl⟩))

theorem agree_union {members : List Json}
    (h : ∀ j ∈ members, ∀ enclosing,
      Agree (FaultsAgree o₁ o₂) (node o₁ j enclosing) (node o₂ j enclosing)) :
    Agree (FaultsAgree o₁ o₂) (union o₁ members enclosing) (union o₂ members enclosing) := by
  cases hu : unionForm members with
  | fault fault =>
    rw [union_of_fault hu, union_of_fault hu]
    exact .throw (.inl rfl)
  | choice =>
    rw [union_of_choice hu, union_of_choice hu]
    exact (agree_branches h).map (evolving_branches fun j _ => evolving_node j)
  | nullable member =>
    have hm := h member (mem_of_unionForm hu) enclosing
    have flat : ∀ o : Options, o.flattenNullableUnions = true →
        union o members enclosing = node o member enclosing := fun o ho => union_of_flattened hu ho
    cases h₁ : o₁.flattenNullableUnions with
    | true =>
      cases h₂ : o₂.flattenNullableUnions with
      | true =>
        rw [flat o₁ h₁, flat o₂ h₂]
        exact hm
      | false =>
        rw [flat o₁ h₁]
        exact (agree_unflattened hu h₂ h₁ (hm.symm fun _ _ => .symm)).symm fun _ _ => .symm
    | false =>
      cases h₂ : o₂.flattenNullableUnions with
      | true =>
        rw [flat o₂ h₂]
        exact agree_unflattened hu h₁ h₂ hm
      | false =>
        intro c d hc hcd
        have hboth := hm c d hc hcd
        rw [outcome_union_of_nullable hu h₁, outcome_union_of_nullable hu h₂, hcd.resolveKind]
        cases d.resolveKind member enclosing with
        | error fault => exact .error (.inl rfl)
        | ok kind =>
          dsimp only
          cases primitiveOfKind? kind with
          | some p => exact .ok hcd
          | none =>
            revert hboth
            generalize outcome (node o₁ member enclosing) c = p
            generalize outcome (node o₂ member enclosing) d = q
            intro hboth
            cases hboth with
            | ok hcd' => exact .ok hcd'
            | error hf => exact .error hf

/-! ### Records and whole nodes -/

/-- Whether a field can be added hangs on its name alone. -/
theorem agree_addField (attributes : Json.Entries) (name : Json) (nullable : Bool)
    (property₁ property₂ properties₁ properties₂ : Json.Entries) (required₁ required₂ : List Json) :
    Agree (FaultsAgree o₁ o₂)
      (Step.ofExcept (addField attributes name nullable property₁ properties₁ required₁))
      (Step.ofExcept (addField attributes name nullable property₂ properties₂ required₂)) := by
  intro c d _ hcd
  rw [outcome_ofExcept, outcome_ofExcept]
  unfold addField
  cases name.toKey? with
  | none => exact .error (.inl rfl)
  | some key => exact .ok hcd

theorem agree_fields {record : Text} {list : List Json}
    (h : ∀ field ∈ list, ∀ attributes name type,
      fieldParts record field = .ok (attributes, name, type) → ∀ enclosing,
        Agree (FaultsAgree o₁ o₂) (node o₁ type enclosing) (node o₂ type enclosing))
    (properties₁ properties₂ : Json.Entries) (required₁ required₂ : List Json) :
    Agree (FaultsAgree o₁ o₂) (fields o₁ record list properties₁ required₁)
      (fields o₂ record list properties₂ required₂) := by
  induction list generalizing properties₁ properties₂ required₁ required₂ with
  | nil =>
    rw [fields_nil, fields_nil]
    exact .pure _ _
  | cons field more ih =>
    cases hp : fieldParts record field with
    | error fault =>
      rw [fields_of_fault hp, fields_of_fault hp]
      exact .throw (.inl rfl)
    | ok parts =>
      obtain ⟨attributes, name, type⟩ := parts
      have htype := h field List.mem_cons_self _ _ _ hp
      rw [fields_cons hp, fields_cons hp]
      refine (htype _).bind (evolving_node _ _) fun property₁ property₂ => ?_
      refine Agree.bind_same (fun _ => .inl rfl) _ fun nullable => ?_
      refine Agree.bind (.ofExcept _)
        (agree_addField attributes name nullable _ _ _ _ _ _) fun added₁ added₂ => ?_
      exact ih (fun f hf => h f (List.mem_cons_of_mem _ hf)) _ _ _ _

theorem agree_record {schema : Json} {name : Text} {attributes : Json.Entries}
    (hs : shape schema = .record name attributes)
    (h : ∀ j, Child j schema → ∀ enclosing,
      Agree (FaultsAgree o₁ o₂) (node o₁ j enclosing) (node o₂ j enclosing)) :
    Agree (FaultsAgree o₁ o₂) (node o₁ schema enclosing) (node o₂ schema enclosing) := by
  intro c d hc hcd
  rw [outcome_record hs, outcome_record hs, ← hcd.seen]
  cases hq : Name.ofNamed name attributes enclosing with
  | error fault => exact .error (.inl rfl)
  | ok qualified =>
    dsimp only
    split
    · exact agree_reference qualified c d hc hcd
    · rename_i hseen
      have hsound := hc.enter (defines_of_record hs hq) hseen
      rw [outcome_recordBody, outcome_recordBody]
      cases hl : fieldList qualified attributes with
      | error fault => exact .error (.inl rfl)
      | ok list =>
        have hfields : Agree (FaultsAgree o₁ o₂) (fields o₁ qualified list.1 [] [])
            (fields o₂ qualified list.1 [] []) := by
          refine agree_fields (fun field hf es n type hp => ?_) [] [] [] []
          exact h type (child_of_field hs (fieldList_ok hl) hf hp)
        replace hfields := hfields _ _ hsound (hcd.enter qualified attributes)
        dsimp only
        revert hfields
        generalize outcome (fields o₁ qualified list.1 [] []) (c.enter qualified attributes) = p
        generalize outcome (fields o₂ qualified list.1 [] []) (d.enter qualified attributes) = q
        intro hfields
        cases hfields with
        | ok hcd' => exact .ok (hcd'.define _ _ _)
        | error hf => exact .error hf

/-- **The conversions of a node under two options agree**, from contexts that are alike. -/
theorem agree_node (o₁ o₂ : Options) (schema : Json) (enclosing : Text) :
    Agree (FaultsAgree o₁ o₂) (node o₁ schema enclosing) (node o₂ schema enclosing) := by
  induction schema using Schema.induction generalizing enclosing with
  | step schema ih =>
    cases hs : shape schema with
    | malformed fault =>
      rw [node_of_malformed hs, node_of_malformed hs]
      exact .throw (.inl rfl)
    | union members =>
      rw [node_of_union hs, node_of_union hs]
      exact agree_union fun j hj => ih j (.member hs hj)
    | name name =>
      rw [node_of_name hs, node_of_name hs]
      exact agree_typeName name
    | wrapper inner =>
      rw [node_of_wrapper hs, node_of_wrapper hs]
      exact ih inner (.inner hs) enclosing
    | primitive p attributes =>
      rw [node_of_primitive hs, node_of_primitive hs]
      exact .pure _ _
    | leaf kind name attributes =>
      rw [node_of_leaf hs, node_of_leaf hs]
      exact agree_leaf kind name attributes
    | array items attributes =>
      rw [node_of_array hs, node_of_array hs]
      exact (ih items (.items hs) enclosing).map (evolving_node _ _)
    | map values attributes =>
      rw [node_of_map hs, node_of_map hs]
      exact (ih values (.values hs) enclosing).map (evolving_node _ _)
    | reference name attributes =>
      rw [node_of_reference hs, node_of_reference hs]
      exact (agree_typeName name).map (evolving_typeName name)
    | record name attributes => exact agree_record hs ih

end Conversion

namespace Document

open Step Conversion

/-- **What is accepted does not hang on the options.**  A schema has a document under some options
if it has one under any others; then the records that are entered, the named types and the keys of
the definitions are the same, in the same order.  A schema that has none fails with the same fault,
that is to say of the same class and with the same message, if both options flatten unions or
neither does; else the conversion that does not may fail with the fault of an odd reference where
the other one fails with the fault of an odd construct or an odd type. -/
theorem accepted_under_all_options (o₁ o₂ : Options) (schema : Json) :
    ((∃ document, ofSchema o₁ schema = .ok document)
        ↔ ∃ document, ofSchema o₂ schema = .ok document)
      ∧ ((∃ document, ofSchema o₁ schema = .ok document) →
          (run o₁ schema).2.seen = (run o₂ schema).2.seen
            ∧ (run o₁ schema).2.named = (run o₂ schema).2.named
            ∧ (run o₁ schema).2.definitions.keys = (run o₂ schema).2.definitions.keys)
      ∧ ∀ f₁ f₂, ofSchema o₁ schema = .error f₁ → ofSchema o₂ schema = .error f₂ →
          (o₁.flattenNullableUnions = o₂.flattenNullableUnions → f₁ = f₂)
            ∧ (o₁.flattenNullableUnions = false → o₂.flattenNullableUnions = true →
                f₁ = f₂ ∨ ∃ j, f₁ = .unusableReference j
                  ∧ (f₂ = .schema (.unexpectedConstruct j) ∨ f₂ = .schema (.invalidType j))) := by
  have hagree := agree_node o₁ o₂ schema [] Context.empty Context.empty .empty ⟨rfl, rfl, rfl⟩
  have h₁ : outcome (node o₁ schema []) Context.empty = run o₁ schema := rfl
  have h₂ : outcome (node o₂ schema []) Context.empty = run o₂ schema := rfl
  rw [h₁, h₂] at hagree
  rw [ofSchema_eq, ofSchema_eq]
  revert hagree
  generalize run o₁ schema = p
  generalize run o₂ schema = q
  intro hagree
  cases hagree with
  | ok hcd =>
    refine ⟨⟨fun _ => ⟨_, rfl⟩, fun _ => ⟨_, rfl⟩⟩,
      fun _ => ⟨hcd.seen, hcd.named, hcd.definitions⟩, fun f₁ f₂ hf => by cases hf⟩
  | error hR =>
    refine ⟨⟨?_, ?_⟩, ?_, ?_⟩
    · rintro ⟨_, hd⟩
      cases hd
    · rintro ⟨_, hd⟩
      cases hd
    · rintro ⟨_, hd⟩
      cases hd
    intro f₁ f₂ hf₁ hf₂
    cases hf₁
    cases hf₂
    rcases hR with rfl | ⟨hfl₁, hfl₂, j, rfl, fault, hmem, rfl⟩ | ⟨hfl₁, hfl₂, -⟩
    · exact ⟨fun _ => rfl, fun _ _ => .inl rfl⟩
    · refine ⟨fun heq => ?_, fun _ _ => .inr ⟨j, rfl, ?_⟩⟩
      · rw [hfl₁, hfl₂] at heq
        cases heq
      · simp only [oddFaults, List.mem_cons, List.not_mem_nil, or_false] at hmem
        rcases hmem with rfl | rfl
        · exact .inl rfl
        · exact .inr rfl
    · refine ⟨fun heq => ?_, fun hff => ?_⟩
      · rw [hfl₁, hfl₂] at heq
        cases heq
      · rw [hfl₁] at hff
        cases hff

end Document

end AvroJsonSchema
