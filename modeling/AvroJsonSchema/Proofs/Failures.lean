import AvroJsonSchema.Proofs.Sessions

/-!
# What a conversion leaves behind

A conversion only adds to the tables of its context.  One that ends well has defined exactly the records
that it has entered.  One that fails has also entered the records that were under way when the fault
arose, and these have no definition.  Which ones these are is told by the conversions under way: each
has been started by the one before, and the last one fails of itself.

* **`Conversion.Task`**: a node to be converted, with its namespace and its context.
* **`Conversion.Task.Starts`**: while one node is converted, another one is.
* **`Conversion.UnderWay`**: conversions of which each starts the next.
* **`Conversion.underWay_of_fault`**: the conversions that are under way when a fault arises, and what
  they leave.
* **`Session.context_grows`**: what a call of a session adds to its context.
-/

namespace AvroJsonSchema

namespace Conversion

open Schema Step

/-! ### Conversions that start others -/

/-- A node that is to be converted within a namespace, and the context it is converted from. -/
structure Task where
  schema : Json
  enclosing : Text
  context : Context

namespace Task

/-- What the conversion ends with, and the context it leaves. -/
def outcome (setup : Setup) (s : Task) : Except Fault Json.Entries × Context :=
  Step.outcome (node setup s.schema s.enclosing) s.context

/-- The record that is entered, with its full name, unless the node is none or has been entered. -/
def opened (s : Task) : List (Text × Json) :=
  match shape s.schema with
  | .record name attributes =>
    match Name.ofNamed name attributes s.enclosing with
    | .ok qualified => if s.context.seen.contains qualified then [] else [(qualified, s.schema)]
    | .error _ => []
  | _ => []

/-- While a node is converted, another node below it comes to be converted.  A name starts nothing:
what is stored under it belongs to the conversion of the name. -/
inductive Starts (setup : Setup) : Task → Task → Prop
  | inner {schema j : Json} {enclosing : Text} {c : Context} :
      shape schema = .wrapper j → Starts setup ⟨schema, enclosing, c⟩ ⟨j, enclosing, c⟩
  | items {schema j : Json} {enclosing : Text} {c : Context} {attributes : Json.Entries} :
      shape schema = .array j attributes → Starts setup ⟨schema, enclosing, c⟩ ⟨j, enclosing, c⟩
  | values {schema j : Json} {enclosing : Text} {c : Context} {attributes : Json.Entries} :
      shape schema = .map j attributes → Starts setup ⟨schema, enclosing, c⟩ ⟨j, enclosing, c⟩
  | nullable {schema j : Json} {enclosing : Text} {c : Context} {members : List Json} :
      shape schema = .union members → unionForm members = .nullable j →
      (setup.options.flattenNullableUnions = false →
        ∃ k, c.resolveKind j enclosing = .ok k ∧ primitiveOfKind? k = none) →
      Starts setup ⟨schema, enclosing, c⟩ ⟨j, enclosing, c⟩
  | branch {schema j : Json} {enclosing : Text} {c c₁ : Context} {before after first : List Json} :
      shape schema = .union (before ++ j :: after) → unionForm (before ++ j :: after) = .choice →
      Step.outcome (branches setup before enclosing) c = (.ok first, c₁) →
      Starts setup ⟨schema, enclosing, c⟩ ⟨j, enclosing, c₁⟩
  | field {schema j field fieldName : Json} {enclosing name qualified : Text} {c c₁ : Context}
      {attributes fieldAttributes : Json.Entries} {before after : List Json}
      {made : Json.Entries × List Json} :
      shape schema = .record name attributes →
      Name.ofNamed name attributes enclosing = .ok qualified → qualified ∉ c.seen →
      attributes.attr? "fields" = some (.arr (before ++ field :: after)) →
      Step.outcome (fields setup qualified before [] []) (c.enter qualified attributes)
        = (.ok made, c₁) →
      fieldParts qualified field = .ok (fieldAttributes, fieldName, j) →
      Starts setup ⟨schema, enclosing, c⟩ ⟨j, Name.namespaceOf qualified, c₁⟩

end Task

variable {setup : Setup} {s t : Task} {c : Context} {fault : Fault}

theorem Task.Starts.child (h : s.Starts setup t) : Child t.schema s.schema := by
  cases h with
  | inner hs => exact .inner hs
  | items hs => exact .items hs
  | values hs => exact .values hs
  | nullable hs hu => exact .member hs (mem_of_unionForm hu)
  | branch hs => exact .member hs (by simp)
  | field hs hq hseen hl ho hp => exact child_of_field hs hl (by simp) hp

theorem Task.opened_of_record {name qualified : Text} {attributes : Json.Entries}
    (hs : shape s.schema = .record name attributes)
    (hq : Name.ofNamed name attributes s.enclosing = .ok qualified)
    (hseen : qualified ∉ s.context.seen) : s.opened = [(qualified, s.schema)] := by
  unfold Task.opened
  rw [hs]
  dsimp only
  rw [hq]
  exact if_neg (mt List.contains_iff_mem.1 hseen)

theorem Task.opened_of_seen {name qualified : Text} {attributes : Json.Entries}
    (hs : shape s.schema = .record name attributes)
    (hq : Name.ofNamed name attributes s.enclosing = .ok qualified)
    (hseen : qualified ∈ s.context.seen) : s.opened = [] := by
  unfold Task.opened
  rw [hs]
  dsimp only
  rw [hq]
  exact if_pos (List.contains_iff_mem.2 hseen)

theorem Task.opened_of_nameless {name : Text} {attributes : Json.Entries}
    (hs : shape s.schema = .record name attributes)
    (hq : Name.ofNamed name attributes s.enclosing = .error fault) : s.opened = [] := by
  unfold Task.opened
  rw [hs]
  dsimp only
  rw [hq]

theorem Task.opened_of_other {x : Shape} (hs : shape s.schema = x)
    (hx : ∀ name attributes, x ≠ .record name attributes) : s.opened = [] := by
  unfold Task.opened
  rw [hs]
  cases x with
  | record name attributes => exact absurd rfl (hx name attributes)
  | _ => rfl

/-! ### Faults pass from one conversion to the one that has started it -/

theorem branches_of_fault {j : Json} {before after first : List Json} {enclosing : Text}
    {c₁ c₂ : Context} (hb : Step.outcome (branches setup before enclosing) c = (.ok first, c₁))
    (h : Step.outcome (node setup j enclosing) c₁ = (.error fault, c₂)) :
    Step.outcome (branches setup (before ++ j :: after) enclosing) c = (.error fault, c₂) := by
  rw [branches_append, bind_of_ok hb, branches_cons]
  exact bind_of_fault (bind_of_fault h _) _

/-- Some nodes fail at one of them, after those before it have been converted. -/
theorem branches_fault {nodes : List Json} {enclosing : Text} {c₂ : Context}
    (h : Step.outcome (branches setup nodes enclosing) c = (.error fault, c₂)) :
    ∃ before j after first c₁, nodes = before ++ j :: after
      ∧ Step.outcome (branches setup before enclosing) c = (.ok first, c₁)
      ∧ Step.outcome (node setup j enclosing) c₁ = (.error fault, c₂) := by
  induction nodes generalizing c with
  | nil =>
    rw [branches_nil] at h
    cases h
  | cons j js ih =>
    rw [branches_cons] at h
    rcases bind_fault h with hj | ⟨es, c₁, hj, hrest⟩
    · refine ⟨[], j, js, [], c, rfl, ?_, hj⟩
      rw [branches_nil]
      rfl
    · rcases bind_fault hrest with hjs | ⟨_, _, -, hpure⟩
      · obtain ⟨before, i, after, first, c₁', rfl, hb, hi⟩ := ih hjs
        refine ⟨j :: before, i, after, .obj es :: first, c₁', rfl, ?_, hi⟩
        rw [branches_cons, bind_of_ok hj, bind_of_ok hb]
        rfl
      · cases hpure

theorem fields_of_type_fault {record : Text} {properties : Json.Entries} {required : List Json}
    {field fieldName j : Json} {before after : List Json} {fieldAttributes : Json.Entries}
    {made : Json.Entries × List Json} {c₁ c₂ : Context}
    (hb : Step.outcome (fields setup record before properties required) c = (.ok made, c₁))
    (hp : fieldParts record field = .ok (fieldAttributes, fieldName, j))
    (h : Step.outcome (node setup j (Name.namespaceOf record)) c₁ = (.error fault, c₂)) :
    Step.outcome (fields setup record (before ++ field :: after) properties required) c
      = (.error fault, c₂) := by
  rw [fields_append, bind_of_ok hb, fields_cons hp]
  exact bind_of_fault h _

/-- Some fields fail at the type of one of them, after those before it have been converted, or they
fail of themselves, and then nothing is left unfinished. -/
theorem fields_fault {record : Text} {list : List Json} {properties : Json.Entries}
    {required : List Json} {c₂ : Context} (hc : c.Sound)
    (h : Step.outcome (fields setup record list properties required) c = (.error fault, c₂)) :
    (∃ before field after fieldAttributes fieldName j made c₁, list = before ++ field :: after
        ∧ Step.outcome (fields setup record before properties required) c = (.ok made, c₁)
        ∧ fieldParts record field = .ok (fieldAttributes, fieldName, j)
        ∧ Step.outcome (node setup j (Name.namespaceOf record)) c₁ = (.error fault, c₂))
      ∨ c.Evolves c₂ [] := by
  induction list generalizing properties required c with
  | nil =>
    rw [fields_nil] at h
    cases h
  | cons field more ih =>
    cases hp : fieldParts record field with
    | error fault' =>
      rw [fields_of_fault hp] at h
      cases h
      exact .inr (.refl hc)
    | ok parts =>
      obtain ⟨attributes, name, type⟩ := parts
      rw [fields_cons hp] at h
      rcases bind_fault h with htype | ⟨property, c₁, htype, hnext⟩
      · refine .inl ⟨[], field, more, attributes, name, type, (properties, required), c, rfl, ?_, hp,
          htype⟩
        rw [fields_nil]
        rfl
      have hevolves : c.Evolves c₁ [] := (evolving_node _ _).of_ok hc htype
      rcases ofExcept_bind_fault hnext with rfl | ⟨nullable, hnullable, hadd⟩
      · exact .inr hevolves
      rcases ofExcept_bind_fault hadd with rfl | ⟨added, hadded, hmore⟩
      · exact .inr hevolves
      rcases ih hevolves.sound hmore with
        ⟨before, field', after, es, n, j, made, d, rfl, hb, hp', hj⟩ | hrest
      · refine .inl ⟨field :: before, field', after, es, n, j, made, d, rfl, ?_, hp', hj⟩
        rw [fields_cons hp, bind_of_ok htype, ofExcept_bind_of_ok hnullable, ofExcept_bind_of_ok hadded]
        exact hb
      · exact .inr (hevolves.trans hrest)

/-- A conversion fails with the fault of one that it has started. -/
theorem Task.Starts.fails {c₂ : Context} (h : s.Starts setup t)
    (ht : t.outcome setup = (.error fault, c₂)) : s.outcome setup = (.error fault, c₂) := by
  unfold Task.outcome at ht ⊢
  cases h with
  | inner hs =>
    rw [node_of_wrapper hs]
    exact ht
  | items hs =>
    rw [node_of_array hs]
    exact bind_of_fault ht _
  | values hs =>
    rw [node_of_map hs]
    exact bind_of_fault ht _
  | nullable hs hu hk =>
    rw [node_of_union hs, union_of_nullable hu]
    cases hf : setup.options.flattenNullableUnions with
    | true => exact ht
    | false =>
      obtain ⟨k, hresolved, hnone⟩ := hk hf
      rw [if_neg Bool.false_ne_true]
      refine (bind_of_ok ((outcome_inspect _ _).trans (congrArg (·, _) hresolved)) _).trans ?_
      rw [hnone]
      exact bind_of_fault ht _
  | branch hs hu hb =>
    rw [node_of_union hs, union_of_choice hu]
    exact bind_of_fault (branches_of_fault hb ht) _
  | field hs hq hseen hl hb hp =>
    obtain ⟨list, hlist, heq⟩ := fieldList_of_attr? _ hl
    rw [outcome_record hs, hq]
    dsimp only
    rw [if_neg hseen, outcome_recordBody, hlist]
    dsimp only
    rw [heq, fields_of_type_fault hb hp ht]

/-! ### What is left unfinished -/

/-- Where nothing is entered, nothing is left unfinished. -/
theorem unfinished_of_seen {c' : Context} {unfinished : List Text} (h : c.Evolves c' unfinished)
    (hs : c'.seen = c.seen) : c.Evolves c' [] := by
  obtain ⟨entered, finished, he, -, hp⟩ := h.records
  rw [hs] at he
  rw [List.self_eq_append_right.1 he] at hp
  have hnone := (List.append_eq_nil_iff.1 (List.nil_perm.1 hp)).2
  rwa [hnone] at h

theorem seen_leaf (options : Options) (kind : Leaf) (name : Text) (attributes : Json.Entries)
    (enclosing : Text) (c : Context) :
    (Step.outcome (leaf options kind name attributes enclosing) c).2.seen = c.seen := by
  rw [outcome_leaf]
  cases Name.ofNamed name attributes enclosing with
  | error fault => rfl
  | ok qualified =>
    dsimp only
    split <;> rfl

theorem seen_typeName (setup : Setup) (name enclosing : Text) (c : Context) :
    (Step.outcome (typeName setup name enclosing) c).2.seen = c.seen := by
  rw [outcome_typeName]
  split
  · rfl
  · split
    · rfl
    · split
      · rw [outcome_reference]
      · split
        · exact seen_leaf _ _ _ _ _ _
        · rw [outcome_reference]

theorem Task.around_of_other {x : Shape} (hs : shape s.schema = x)
    (hx : ∀ name attributes, x ≠ .record name attributes) (h : s.context.Evolves t.context []) :
    t.context.Sound ∧ ∀ c' unfinished, t.context.Evolves c' unfinished →
      s.context.Evolves c' (s.opened.map Prod.fst ++ unfinished) := by
  rw [Task.opened_of_other hs hx]
  exact ⟨h.sound, fun c' unfinished h' => h.trans h'⟩

/-- What a conversion has found, and the record that it enters, are around everything that a
conversion leaves that it has started. -/
theorem Task.Starts.around (h : s.Starts setup t) (hc : s.context.Sound) :
    t.context.Sound ∧ ∀ c' unfinished, t.context.Evolves c' unfinished →
      s.context.Evolves c' (s.opened.map Prod.fst ++ unfinished) := by
  cases h with
  | inner hs => exact Task.around_of_other hs (by simp) (.refl hc)
  | items hs => exact Task.around_of_other hs (by simp) (.refl hc)
  | values hs => exact Task.around_of_other hs (by simp) (.refl hc)
  | nullable hs => exact Task.around_of_other hs (by simp) (.refl hc)
  | branch hs hu hb =>
    have hbefore := (evolving_branches fun i _ => evolving_node i).of_ok hc hb
    exact Task.around_of_other hs (by simp) hbefore
  | field hs hq hseen hl hb hp =>
    have henter := Context.Sound.enter hc (defines_of_record hs hq) hseen
    have hbefore := (evolving_fields (fun f _ es n i _ => evolving_node i) [] []).of_ok henter hb
    rw [Task.opened_of_record hs hq hseen]
    exact ⟨hbefore.sound, fun c' unfinished h => .of_enter (hbefore.trans h)⟩

/-- A union that fails of itself fails before anything is converted. -/
theorem still_of_union_fault {schema : Json} {members : List Json} {enclosing : Text} {c₂ : Context}
    (hs : shape schema = .union members)
    (h : Step.outcome (union setup members enclosing) c = (.error fault, c₂))
    (hnone : ∀ t, Task.Starts setup ⟨schema, enclosing, c⟩ t →
      t.outcome setup ≠ (.error fault, c₂)) : c₂ = c := by
  cases hu : unionForm members with
  | fault f =>
    rw [union_of_fault hu] at h
    cases h
    rfl
  | choice =>
    rw [union_of_choice hu] at h
    rcases bind_fault h with hbranches | ⟨_, _, -, hpure⟩
    · obtain ⟨before, j, after, first, c₁, rfl, hb, hj⟩ := branches_fault hbranches
      exact absurd hj (hnone ⟨j, enclosing, c₁⟩ (.branch hs hu hb))
    · cases hpure
  | nullable member =>
    cases hf : setup.options.flattenNullableUnions with
    | true =>
      rw [union_of_flattened hu hf] at h
      refine absurd h (hnone ⟨member, enclosing, c⟩ (.nullable hs hu fun hf' => ?_))
      rw [hf] at hf'
      cases hf'
    | false =>
      rw [outcome_union_of_nullable hu hf] at h
      cases hr : c.resolveKind member enclosing with
      | error f =>
        rw [hr] at h
        cases h
        rfl
      | ok k =>
        rw [hr] at h
        dsimp only at h
        cases hp : primitiveOfKind? k with
        | some p =>
          rw [hp] at h
          cases h
        | none =>
          rw [hp] at h
          dsimp only at h
          rcases ho : Step.outcome (node setup member enclosing) c with ⟨result, c'⟩
          rw [ho] at h
          cases result with
          | ok branch => cases h
          | error f =>
            cases h
            exact absurd ho (hnone ⟨member, enclosing, c⟩ (.nullable hs hu fun _ => ⟨k, hr, hp⟩))

/-- A record that fails of itself is left unfinished if it has been entered. -/
theorem evolves_of_record_fault {schema : Json} {name enclosing : Text} {attributes : Json.Entries}
    {c₂ : Context} (hc : c.Sound) (hs : shape schema = .record name attributes)
    (h : Step.outcome (node setup schema enclosing) c = (.error fault, c₂))
    (hnone : ∀ t, Task.Starts setup ⟨schema, enclosing, c⟩ t →
      t.outcome setup ≠ (.error fault, c₂)) :
    c.Evolves c₂ ((Task.opened ⟨schema, enclosing, c⟩).map Prod.fst) := by
  rw [outcome_record hs] at h
  cases hq : Name.ofNamed name attributes enclosing with
  | error f =>
    rw [hq] at h
    cases h
    rw [Task.opened_of_nameless hs hq]
    exact .refl hc
  | ok qualified =>
    rw [hq] at h
    dsimp only at h
    by_cases hseen : qualified ∈ c.seen
    · rw [if_pos hseen, outcome_reference] at h
      have hc₂ : c = c₂ := congrArg Prod.snd h
      rw [Task.opened_of_seen hs hq hseen, ← hc₂]
      exact .refl hc
    · have henter := hc.enter (defines_of_record hs hq) hseen
      rw [if_neg hseen, outcome_recordBody] at h
      rw [Task.opened_of_record hs hq hseen]
      cases hl : fieldList qualified attributes with
      | error f =>
        rw [hl] at h
        cases h
        exact .of_enter (.refl henter)
      | ok list =>
        rw [hl] at h
        dsimp only at h
        rcases ho : Step.outcome (fields setup qualified list.1 [] []) (c.enter qualified attributes)
          with ⟨result, c'⟩
        rw [ho] at h
        cases result with
        | ok made => cases h
        | error f =>
          cases h
          rcases fields_fault henter ho with
            ⟨before, field, after, es, n, j, made, c₁, heq, hb, hp, hj⟩ | he
          · have hfields := fieldList_ok hl
            rw [heq] at hfields
            exact absurd hj (hnone ⟨j, _, c₁⟩ (.field hs hq hseen hfields hb hp))
          · exact .of_enter he

/-- A conversion that fails of itself leaves the record unfinished that it enters. -/
theorem evolves_of_own_fault {c₂ : Context} (hc : s.context.Sound)
    (h : s.outcome setup = (.error fault, c₂))
    (hown : ∀ t, s.Starts setup t → ∃ es, (t.outcome setup).1 = .ok es) :
    s.context.Evolves c₂ (s.opened.map Prod.fst) := by
  have hnone : ∀ t, s.Starts setup t → t.outcome setup ≠ (.error fault, c₂) := by
    intro t hst ht
    obtain ⟨es, hes⟩ := hown t hst
    rw [ht] at hes
    cases hes
  obtain ⟨schema, enclosing, c⟩ := s
  have hstill : ∀ x, shape schema = x → (∀ name attributes, x ≠ .record name attributes) →
      c₂.seen = c.seen → c.Evolves c₂ ((Task.opened ⟨schema, enclosing, c⟩).map Prod.fst) := by
    intro x hs hx hseen
    obtain ⟨unfinished, he, -⟩ := evolving_node schema enclosing c hc
    rw [show Step.outcome (node setup schema enclosing) c = _ from h] at he
    rw [Task.opened_of_other hs hx]
    exact unfinished_of_seen he hseen
  unfold Task.outcome at h hnone
  dsimp only at h hnone
  cases hs : shape schema with
  | malformed f =>
    rw [node_of_malformed hs] at h
    cases h
    exact hstill _ hs (by simp) rfl
  | name name =>
    rw [node_of_name hs] at h
    refine hstill _ hs (by simp) ?_
    rw [← seen_typeName setup name enclosing c, h]
  | reference name attributes =>
    rw [node_of_reference hs] at h
    rcases bind_fault h with hname | ⟨_, _, -, hpure⟩
    · refine hstill _ hs (by simp) ?_
      rw [← seen_typeName setup name enclosing c, hname]
    · cases hpure
  | primitive p attributes =>
    rw [node_of_primitive hs] at h
    cases h
  | leaf kind name attributes =>
    rw [node_of_leaf hs] at h
    refine hstill _ hs (by simp) ?_
    rw [← seen_leaf setup.options kind name attributes enclosing c, h]
  | wrapper inner =>
    rw [node_of_wrapper hs] at h
    exact absurd h (hnone _ (.inner hs))
  | array items attributes =>
    rw [node_of_array hs] at h
    rcases bind_fault h with hitems | ⟨_, _, -, hpure⟩
    · exact absurd hitems (hnone _ (.items hs))
    · cases hpure
  | map values attributes =>
    rw [node_of_map hs] at h
    rcases bind_fault h with hvalues | ⟨_, _, -, hpure⟩
    · exact absurd hvalues (hnone _ (.values hs))
    · cases hpure
  | union members =>
    rw [node_of_union hs] at h
    exact hstill _ hs (by simp) (congrArg _ (still_of_union_fault hs h hnone))
  | record name attributes => exact evolves_of_record_fault hc hs h hnone

/-! ### Conversions under way -/

/-- Conversions from a first to a last one, of which each starts the next. -/
inductive UnderWay (setup : Setup) : Task → List Task → Task → Prop
  | last (s : Task) : UnderWay setup s [s] s
  | start {s t last : Task} {tasks : List Task} :
      s.Starts setup t → UnderWay setup t tasks last → UnderWay setup s (s :: tasks) last

/-- When a fault arises, conversions are under way that all fail with it, down to one that fails of
itself; and unfinished are the records that these have entered. -/
theorem underWay_of_fault {c₂ : Context} (hc : s.context.Sound)
    (h : s.outcome setup = (.error fault, c₂)) :
    ∃ tasks last, UnderWay setup s tasks last
      ∧ (∀ t ∈ tasks, t.outcome setup = (.error fault, c₂))
      ∧ (∀ t, last.Starts setup t → ∃ es, (t.outcome setup).1 = .ok es)
      ∧ s.context.Evolves c₂ ((tasks.flatMap Task.opened).map Prod.fst) := by
  obtain ⟨schema, enclosing, c⟩ := s
  induction schema using Schema.induction generalizing enclosing c with
  | step schema ih =>
    -- either the fault is this conversion's own, or it comes from one that this one has started, which
    -- is the next under way
    by_cases hown : ∀ t, Task.Starts setup ⟨schema, enclosing, c⟩ t →
        ∃ es, (t.outcome setup).1 = .ok es
    · refine ⟨_, _, .last _, fun t ht => ?_, hown, ?_⟩
      · rw [List.mem_singleton.1 ht]
        exact h
      · rw [List.flatMap_singleton]
        exact evolves_of_own_fault hc h hown
    · obtain ⟨t, hst, hfails⟩ : ∃ t, Task.Starts setup ⟨schema, enclosing, c⟩ t
          ∧ ¬∃ es, (t.outcome setup).1 = .ok es := by
        simpa using hown
      have ht : t.outcome setup = (.error fault, c₂) := by
        rcases ho : t.outcome setup with ⟨result, c'⟩
        cases result with
        | ok es => exact absurd ⟨es, congrArg Prod.fst ho⟩ hfails
        | error f => exact (hst.fails ho).symm.trans h
      obtain ⟨hsound, haround⟩ := hst.around hc
      obtain ⟨tasks, last, hway, hall, hlast, he⟩ :=
        ih t.schema hst.child t.enclosing t.context hsound ht
      refine ⟨_, last, .start hst hway, fun u hu => ?_, hlast, ?_⟩
      · rcases List.mem_cons.1 hu with rfl | hu
        · exact h
        · exact hall u hu
      · rw [List.flatMap_cons, List.map_append]
        exact haround c₂ _ he

theorem Task.eq_of_opened {record : Text × Json} (h : record ∈ s.opened) : record.2 = s.schema := by
  unfold Task.opened at h
  split at h
  · split at h
    · split at h
      · cases h
      · rw [List.mem_singleton.1 h]
    · cases h
  · cases h

theorem Task.pairwise_opened (R : Text × Json → Text × Json → Prop) : s.opened.Pairwise R := by
  unfold Task.opened
  split
  · split
    · split
      · exact .nil
      · exact List.pairwise_singleton _ _
    · exact .nil
  · exact .nil

theorem UnderWay.stand_below {tasks : List Task} {last : Task} (h : UnderWay setup s tasks last) :
    ∀ t ∈ tasks, Below t.schema s.schema ∧ Below last.schema t.schema := by
  induction h with
  | last s =>
    intro t ht
    rw [List.mem_singleton.1 ht]
    exact ⟨.self _, .self _⟩
  | start hst hway ih =>
    intro u hu
    rcases List.mem_cons.1 hu with rfl | hu
    · have hself : ∀ {s t : Task} {tasks : List Task}, UnderWay setup s tasks t → s ∈ tasks := by
        intro s t tasks h
        cases h <;> exact List.mem_cons_self
      exact ⟨.self _, .child hst.child (ih _ (hself hway)).2⟩
    · exact ⟨.child hst.child (ih u hu).1, (ih u hu).2⟩

/-- A node stands inside another one. -/
def Inside (j schema : Json) : Prop :=
  ∃ i, Child i schema ∧ Below j i

/-- The records that are entered by conversions under way stand each inside the one before. -/
theorem UnderWay.nested {tasks : List Task} {last : Task} (h : UnderWay setup s tasks last) :
    (tasks.flatMap Task.opened).Pairwise fun outer inner => Inside inner.2 outer.2 := by
  induction h with
  | last s =>
    rw [List.flatMap_singleton]
    exact Task.pairwise_opened _
  | start hst hway ih =>
    rw [List.flatMap_cons, List.pairwise_append]
    refine ⟨Task.pairwise_opened _, ih, fun outer houter inner hinner => ?_⟩
    obtain ⟨u, hu, hinner⟩ := List.mem_flatMap.1 hinner
    rw [Task.eq_of_opened houter, Task.eq_of_opened hinner]
    exact ⟨_, hst.child, (hway.stand_below u hu).1⟩

/-- The last of some conversions under way stands at or below every record that they enter. -/
theorem UnderWay.last_below {tasks : List Task} {last : Task} (h : UnderWay setup s tasks last)
    {record : Text × Json} (hr : record ∈ tasks.flatMap Task.opened) : Below last.schema record.2 := by
  obtain ⟨t, ht, hopened⟩ := List.mem_flatMap.1 hr
  rw [Task.eq_of_opened hopened]
  exact (h.stand_below t ht).2

end Conversion

/-! ### What is added -/

/-- What a context has more than another one.  Definitions are added at the end, of records that had
not been entered, each once; records are added at the end of those that have been entered, and they are
those that have been defined with those that are unfinished; and names are added at the end. -/
structure Context.Extends (c c' : Context) (entered : List Text)
    (finished : Table Text Json.Entries) (unfinished : List Text) : Prop where
  definitions : c'.definitions = c.definitions ++ finished
  finished_nodup : (Table.keys finished).Nodup
  finished_new : ∀ q ∈ Table.keys finished, q ∉ c.seen
  seen : c'.seen = c.seen ++ entered
  entered_new : ∀ q ∈ entered, q ∉ c.seen
  entered_iff : ∀ q, q ∈ entered ↔ q ∈ Table.keys finished ∨ q ∈ unfinished
  undefined : ∀ q ∈ unfinished, q ∉ c'.definitions.keys
  named : ∃ more, c'.named.keys = c.named.keys ++ more

theorem Context.Evolves.extends {c c' : Context} {unfinished : List Text} (hc : c.Sound)
    (h : c.Evolves c' unfinished) :
    ∃ entered finished, c.Extends c' entered finished unfinished := by
  obtain ⟨entered, finished, hs, hd, hp⟩ := h.records
  have hseen := h.sound.seen_nodup
  rw [hs, List.nodup_append] at hseen
  obtain ⟨-, hentered, hapart⟩ := hseen
  have hnew : ∀ q ∈ entered, q ∉ c.seen := fun q hq hold => hapart q hold q hq rfl
  have hiff : ∀ q, q ∈ entered ↔ q ∈ Table.keys finished ∨ q ∈ unfinished := by
    intro q
    rw [hp.mem_iff, List.mem_append]
  have hnodup := hp.nodup_iff.1 hentered
  rw [List.nodup_append] at hnodup
  refine ⟨entered, finished, hd, hnodup.1, fun q hq => hnew q ((hiff q).2 (.inl hq)), hs, hnew, hiff,
    fun q hq hdef => ?_, h.named⟩
  rw [hd, Table.keys_append, List.mem_append] at hdef
  rcases hdef with hold | hfinished
  · exact hnew q ((hiff q).2 (.inr hq)) (hc.defined_seen q hold)
  · exact hnodup.2.2 q hfinished q hq rfl

open Conversion in
/-- **A conversion only adds to its context.**  From every context of a session, whatever node or union
is converted within whatever namespace: nothing is lost or changed in the tables, and what is added is
added at the end.  If the conversion ends well, exactly the records that it has entered are newly
defined.  If it fails, it has also entered the records, and only these, that the conversions under way
had entered when the fault arose: each stands inside the one before, the node that fails of itself
stands at or below all of them, and none of them is defined. -/
theorem Session.context_grows (setup : Setup) (c : Context) (hc : c.Reachable setup)
    (schema : Json) (enclosing : Text) :
    let result := (Step.outcome (node setup schema enclosing) c).1
    let c' := (Step.outcome (node setup schema enclosing) c).2
    (∀ members, schema = .arr members → Step.outcome (union setup members enclosing) c = (result, c'))
      ∧ ∃ (entered : List Text) (finished : Table Text Json.Entries),
        (∀ keywords, result = .ok keywords → c.Extends c' entered finished [])
          ∧ ∀ fault, result = .error fault → ∃ tasks last,
            UnderWay setup ⟨schema, enclosing, c⟩ tasks last
              ∧ (∀ s ∈ tasks, s.outcome setup = (.error fault, c'))
              ∧ (∀ t, last.Starts setup t → ∃ keywords, (t.outcome setup).1 = .ok keywords)
              ∧ c.Extends c' entered finished ((tasks.flatMap Task.opened).map Prod.fst)
              ∧ (tasks.flatMap Task.opened).Pairwise (fun outer inner => Inside inner.2 outer.2)
              ∧ ∀ record ∈ tasks.flatMap Task.opened, Schema.Below last.schema record.2 := by
  intro result c'
  refine ⟨fun members hm => ?_, ?_⟩
  · have hunion : node setup schema enclosing = union setup members enclosing := by
      rw [hm]
      exact node_of_union rfl
    show _ = Step.outcome (node setup schema enclosing) c
    rw [hunion]
  have ho : Task.outcome setup ⟨schema, enclosing, c⟩ = (result, c') := rfl
  cases hresult : result with
  | ok keywords =>
    rw [hresult] at ho
    have he : c.Evolves c' [] := (evolving_node schema enclosing).of_ok hc.sound ho
    obtain ⟨entered, finished, hextends⟩ := he.extends hc.sound
    refine ⟨entered, finished, fun _ _ => hextends, fun fault hf => ?_⟩
    cases hf
  | error fault =>
    rw [hresult] at ho
    obtain ⟨tasks, last, hway, hall, hlast, he⟩ := underWay_of_fault hc.sound ho
    obtain ⟨entered, finished, hextends⟩ := he.extends hc.sound
    refine ⟨entered, finished, fun keywords hk => ?_, fun fault' hf => ?_⟩
    · cases hk
    · cases hf
      exact ⟨tasks, last, hway, hall, hlast, hextends, hway.nested, fun _ hr => hway.last_below hr⟩

/-- An order with an item, and with buyers of whom the address is no type. -/
def brokenOrder : Json :=
  .obj [(.text "type", "record"), (.text "name", "Order"), (.text "fields", .arr [
    .obj [(.text "name", "item"), (.text "type", .obj [(.text "type", "record"),
      (.text "name", "Item"), (.text "fields", .arr [])])],
    .obj [(.text "name", "buyers"), (.text "type", .obj [(.text "type", "array"),
      (.text "items", .obj [(.text "type", "record"), (.text "name", "Buyer"),
        (.text "fields", .arr [.obj [(.text "name", "home"), (.text "type", "Address")]])])])]])]

open Conversion in
/-- The order and its buyers are left unfinished.  The order is a reference afterwards, within a union
too. -/
theorem Session.context_grows_brokenOrder :
    let c := (Session.run Options.strict Context.empty [.node brokenOrder []]).2
    (∃ tasks last, UnderWay Options.strict ⟨brokenOrder, [], Context.empty⟩ tasks last
        ∧ ∀ q, q ∈ (tasks.flatMap Task.opened).map Prod.fst ↔
          q = Text.ofString "Order" ∨ q = Text.ofString "Buyer")
      ∧ Step.outcome (union Options.strict [brokenOrder] []) c =
        Step.outcome (node Options.strict (.arr [brokenOrder]) []) c
      ∧ ∃ entered finished,
        c.Extends (Step.outcome (node Options.strict (.arr [brokenOrder]) []) c).2
          entered finished [] := by
  intro c
  have hseen : c.seen = ["Order", "Item", "Buyer"].map Text.ofString := by decide +kernel
  have hdefined : c.definitions.keys = ["Item"].map Text.ofString := by decide +kernel
  have hfails : (Step.outcome (node Options.strict brokenOrder []) Context.empty).1.isOk = false := by
    decide +kernel
  have hagain : (Step.outcome (node Options.strict (.arr [brokenOrder]) []) c).1.isOk = true := by
    decide +kernel
  refine ⟨?_, ?_⟩
  · obtain ⟨-, entered, finished, -, hfault⟩ :=
      context_grows Options.strict Context.empty ⟨[], rfl⟩ brokenOrder []
    cases hr : (Step.outcome (node Options.strict brokenOrder []) Context.empty).1 with
    | ok keywords =>
      rw [hr] at hfails
      cases hfails
    | error fault =>
      obtain ⟨tasks, last, hway, -, -, hextends, -⟩ := hfault fault hr
      refine ⟨tasks, last, hway, fun q => ?_⟩
      have hs : c.seen = entered := hextends.seen
      have hd : c.definitions = finished := hextends.definitions
      have hiff := hextends.entered_iff q
      have hundefined : _ → q ∉ c.definitions.keys := hextends.undefined q
      rw [← hs, ← hd, hseen, hdefined] at hiff
      rw [hdefined] at hundefined
      constructor
      · intro hq
        have hentered := hiff.2 (.inr hq)
        have hother := hundefined hq
        simp only [List.map_cons, List.map_nil, List.mem_cons, List.not_mem_nil, or_false]
          at hentered hother
        rcases hentered with h | h | h
        · exact .inl h
        · exact absurd h hother
        · exact .inr h
      · rintro (rfl | rfl)
        · exact (hiff.1 (by decide)).resolve_left (by decide)
        · exact (hiff.1 (by decide)).resolve_left (by decide)
  · obtain ⟨hunion, entered, finished, hok, -⟩ :=
      context_grows Options.strict c ⟨_, rfl⟩ (.arr [brokenOrder]) []
    refine ⟨hunion _ rfl, entered, finished, ?_⟩
    cases hr : (Step.outcome (node Options.strict (.arr [brokenOrder]) []) c).1 with
    | ok keywords => exact hok keywords hr
    | error fault =>
      rw [hr] at hagain
      cases hagain

end AvroJsonSchema
