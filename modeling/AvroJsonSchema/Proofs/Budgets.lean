import AvroJsonSchema.Proofs.Sessions

/-!
# Conversions within a budget

A name leads to the definition that is stored under it, and this definition is converted like any
other node: the recursion jumps to a tree that has been met earlier and that may enclose the node in
hand.  Here the conversion is spelled out with that jump, with a budget for the node conversions that
are under way at once, and with every look-up that could find nothing.  From the contexts of a session
it never uses up a budget that exceeds the nesting depth of the node by two, and nothing that it looks
up is missing; so it is the conversion that goes by the size of the node.

* **`Json.depth`**: how deep a tree is nested.
* **`Bounded.node`**: the conversion within a budget.  **`Halt`**: how it may end beside a fault.
* **`Attempt.Does`**: an attempt does what a part of a conversion does.
* **`Bounded.does_node`**: a budget of two beyond the depth suffices.
* **`Session.conversions_terminate`**: the same for all calls from the contexts of a session.
-/

namespace AvroJsonSchema

/-! ### Depth -/

namespace Json

mutual

/-- How many lists and objects are nested in a tree. -/
def depth : Json → Nat
  | .arr items => depthOfItems items + 1
  | .obj entries => depthOfEntries entries + 1
  | _ => 0

/-- The depth of the deepest of some trees. -/
def depthOfItems : List Json → Nat
  | [] => 0
  | j :: js => max j.depth (depthOfItems js)

/-- The depth of the deepest value of an object. -/
def depthOfEntries : List (Key × Json) → Nat
  | [] => 0
  | (_, j) :: es => max j.depth (depthOfEntries es)

end

theorem depth_le_depthOfItems {j : Json} {js : List Json} (h : j ∈ js) :
    j.depth ≤ depthOfItems js := by
  induction js with
  | nil => cases h
  | cons i js ih =>
    rw [depthOfItems]
    rcases List.mem_cons.1 h with rfl | h
    · omega
    · have hle := ih h
      omega

theorem depth_le_depthOfEntries {k : Key} {j : Json} {es : List (Key × Json)} (h : (k, j) ∈ es) :
    j.depth ≤ depthOfEntries es := by
  induction es with
  | nil => cases h
  | cons e es ih =>
    obtain ⟨k', i⟩ := e
    rw [depthOfEntries]
    rcases List.mem_cons.1 h with h | h
    · cases h
      omega
    · have hle := ih h
      omega

theorem depth_lt_of_mem {j : Json} {items : List Json} (h : j ∈ items) :
    j.depth < (Json.arr items).depth := by
  have hle := depth_le_depthOfItems h
  rw [depth]
  omega

theorem depth_lt_of_attr? {name : Text} {j : Json} {es : Entries} (h : es.attr? name = some j) :
    j.depth < (Json.obj es).depth := by
  obtain ⟨k, hm⟩ := Table.mem_of_get? h
  have hle := depth_le_depthOfEntries hm
  rw [depth]
  omega

end Json

/-- A node below another one is less deep. -/
theorem Schema.Child.depth_lt {schema j : Json} (h : Child j schema) : j.depth < schema.depth := by
  cases h with
  | member hs hj =>
    rw [eq_arr_of_shape hs]
    exact Json.depth_lt_of_mem hj
  | inner hs =>
    obtain ⟨es, rfl, he⟩ := fits_of_shape hs (by simp) (by simp) (by simp)
    exact Json.depth_lt_of_attr? he
  | items hs =>
    obtain ⟨es, rfl, -, he⟩ := fits_of_shape hs (by simp) (by simp) (by simp)
    exact Json.depth_lt_of_attr? he
  | values hs =>
    obtain ⟨es, rfl, -, he⟩ := fits_of_shape hs (by simp) (by simp) (by simp)
    exact Json.depth_lt_of_attr? he
  | field hs hl hf ht =>
    have hlist := Json.depth_lt_of_attr? hl
    have hfield := Json.depth_lt_of_mem hf
    have htype := Json.depth_lt_of_attr? ht
    rw [eq_obj_of_record hs]
    omega

/-! ### Attempts -/

/-- How a conversion that is spelled out may end without a value. -/
inductive Halt where
  | fault (fault : Fault)
  /-- The budget is used up. -/
  | exhausted
  /-- Nothing is stored under a full name that is looked up. -/
  | unnamed (qualified : Text)

/-- A part of a conversion that is spelled out. -/
abbrev Attempt := ExceptT Halt (StateM Context)

namespace Attempt

variable {α β : Type}

/-- The outcome of an attempt, and the context it leaves. -/
def outcome (x : Attempt α) (c : Context) : Except Halt α × Context :=
  x.run.run c

/-- A part of a conversion as an attempt. -/
def ofStep (x : Step α) : Attempt α :=
  fun c => ((Step.outcome x c).1.mapError .fault, (Step.outcome x c).2)

/-- An attempt that looks at no context. -/
def ofExcept (x : Except Fault α) : Attempt α :=
  ofStep (Step.ofExcept x)

theorem outcome_ofStep (x : Step α) (c : Context) :
    outcome (ofStep x) c = ((Step.outcome x c).1.mapError .fault, (Step.outcome x c).2) :=
  rfl

theorem outcome_ofExcept (x : Except Fault α) (c : Context) :
    outcome (ofExcept x) c = (x.mapError .fault, c) := by
  show outcome (ofStep _) c = _
  rw [outcome_ofStep, Step.outcome_ofExcept]

theorem outcome_ofExcept_ok (a : α) (c : Context) :
    outcome (ofExcept (.ok a)) c = (.ok a, c) :=
  rfl

theorem outcome_bind (x : Attempt α) (f : α → Attempt β) (c : Context) :
    outcome (x >>= f) c =
      match outcome x c with
      | (.ok a, c') => outcome (f a) c'
      | (.error halt, c') => (.error halt, c') := by
  show (ExceptT.bind x f c : Except Halt β × Context) = _
  simp only [ExceptT.bind, ExceptT.mk, bind, StateT.bind]
  show ExceptT.bindCont f (outcome x c).1 (outcome x c).2 = _
  rcases outcome x c with ⟨result, c'⟩
  cases result <;> rfl

/-- From a context, an attempt ends with the value or the fault of a part of a conversion, and leaves
the same context. -/
def EndsAs (x : Attempt α) (y : Step α) (c : Context) : Prop :=
  outcome x c = ((Step.outcome y c).1.mapError .fault, (Step.outcome y c).2)

/-- An attempt does what a part of a conversion does: it ends as the part does, from every context
that keeps the invariant. -/
def Does (x : Attempt α) (y : Step α) : Prop :=
  ∀ c, c.Sound → EndsAs x y c

theorem Does.ofStep (x : Step α) : Does (ofStep x) x :=
  fun _ _ => rfl

theorem Does.pure (a : α) : Does (pure a : Attempt α) (pure a : Step α) :=
  fun _ _ => rfl

theorem Does.throw (fault : Fault) :
    Does (throw (.fault fault) : Attempt α) (throw fault : Step α) :=
  fun _ _ => rfl

theorem Does.bind {x : Attempt α} {y : Step α} {f : α → Attempt β} {g : α → Step β}
    (hxy : Does x y) (hy : Step.Evolving y) (hfg : ∀ a, Does (f a) (g a)) :
    Does (x >>= f) (y >>= g) := by
  intro c hc
  obtain ⟨unfinished, he, -⟩ := hy c hc
  unfold EndsAs
  rw [outcome_bind, hxy c hc, Step.outcome_bind]
  rcases ho : Step.outcome y c with ⟨result, c'⟩
  rw [ho] at he
  cases result with
  | error fault => rfl
  | ok a => exact hfg a c' he.sound

theorem Does.map {x : Attempt α} {y : Step α} (hxy : Does x y) (hy : Step.Evolving y) (g : α → β) :
    Does (x >>= Pure.pure ∘ g) (y >>= Pure.pure ∘ g) :=
  hxy.bind hy fun a => .pure (g a)

/-- What ends as a part of a conversion never halts but by a fault. -/
theorem EndsAs.halts_by_fault {x : Attempt α} {y : Step α} {c : Context} (h : EndsAs x y c)
    {halt : Halt} (hx : (outcome x c).1 = .error halt) :
    ∃ fault, halt = .fault fault ∧ (Step.outcome y c).1 = .error fault := by
  rw [h] at hx
  cases hr : (Step.outcome y c).1 with
  | error fault =>
    rw [hr] at hx
    exact ⟨fault, (Except.error.inj hx).symm, rfl⟩
  | ok a =>
    rw [hr] at hx
    cases hx

end Attempt

/-! ### The conversion spelled out -/

namespace Bounded

open Schema Conversion Attempt

/-- The conversion of a node within a namespace, as the parts of a conversion call it. -/
abbrev Converter := Json → Text → Attempt Json.Entries

/-- What is stored under a full name. -/
def stored (qualified : Text) : Attempt Json.Entries := do
  match (← get).named.get? qualified with
  | some attributes => pure attributes
  | none => throw (.unnamed qualified)

/-- Converts a type name: the definition of an enum or of a fixed type is converted again. -/
def typeName (setup : Setup) (convert : Converter) (name enclosing : Text) :
    Attempt Json.Entries := do
  if (Primitive.ofText? name).isSome then ofExcept (Scalar.applyKind (.str name) false [])
  else
    let qualified ← ofStep (Step.inspect (Context.resolve · name enclosing))
    if (← get).seen.contains qualified then ofStep (reference setup qualified)
    else
      let attributes ← stored qualified
      convert (.obj attributes) (Name.namespaceOf qualified)

/-- The kind of a schema within a namespace. -/
def resolveKind (schema : Json) (enclosing : Text) : Attempt Json := do
  match ← ofExcept (Schema.kind schema) with
  | .str t =>
    if t = Text.ofString "union" then pure (.str t)
    else
      match TypeName.ofText t with
      | .defined name =>
        let qualified ← ofStep (Step.inspect (Context.resolve · name enclosing))
        let attributes ← stored qualified
        ofExcept (Schema.kind (.obj attributes))
      | _ => pure (.str t)
  | j => throw (.fault (.unusableReference j))

/-- Null or a scalar of some kind, as a list of two types. -/
def nullableScalar (options : Options) (member kind : Json) : Attempt Json.Entries :=
  let logicalType? :=
    match member with
    | .obj attributes => Schema.logicalType? attributes
    | _ => none
  match logicalType? with
  | some l =>
    pure ((.text "type", Keywords.nullableScalar.typePair l.schemaType)
      :: l.details options.javaTypeHints)
  | none => do
    let type ← ofExcept (SchemaType.ofKind kind)
    pure [(.text "type", .arr ["null", type])]

/-- Converts some nodes one after the other. -/
def branches (convert : Converter) (nodes : List Json) (enclosing : Text) : Attempt (List Json) :=
  match nodes with
  | [] => pure []
  | j :: js =>
    convert j enclosing >>= fun first =>
      branches convert js enclosing >>= (pure ∘ fun rest => .obj first :: rest)

/-- Converts a union. -/
def union (setup : Setup) (convert : Converter) (members : List Json) (enclosing : Text) :
    Attempt Json.Entries := do
  match unionForm members with
  | .fault fault => throw (.fault fault)
  | .choice => branches convert members enclosing >>= (pure ∘ Keywords.oneOf)
  | .nullable member =>
    if setup.options.flattenNullableUnions then convert member enclosing
    else
      let kind ← resolveKind member enclosing
      if (primitiveOfKind? kind).isSome then nullableScalar setup.options member kind
      else
        let branch ← convert member enclosing
        pure (Keywords.oneOf [Keywords.nullSchema, .obj branch])

/-- Converts the fields of a record. -/
def fields (convert : Converter) (record : Text) (list : List Json) (properties : Json.Entries)
    (required : List Json) : Attempt (Json.Entries × List Json) :=
  match list with
  | [] => pure (properties, required)
  | field :: more => do
    let parts ← ofExcept (fieldParts record field)
    let property ← convert parts.2.2 (Name.namespaceOf record)
    let nullable ← ofExcept (Schema.isNullable parts.2.2)
    let added ← ofExcept (addField parts.1 parts.2.1 nullable property properties required)
    fields convert record more added.1 added.2

/-- Converts a record that has been entered. -/
def recordBody (setup : Setup) (convert : Converter) (qualified : Text)
    (attributes : Json.Entries) : Attempt Json.Entries := do
  let list ← ofExcept (fieldList qualified attributes)
  let made ← fields convert qualified list.1 [] []
  let schema := recordKeywords setup.options qualified attributes made.1 made.2
  ofStep (modify (Context.define qualified schema))
  pure schema

/-- Converts a record, unless it has been entered. -/
def record (setup : Setup) (convert : Converter) (name : Text) (attributes : Json.Entries)
    (enclosing : Text) : Attempt Json.Entries := do
  let qualified ← ofExcept (Name.ofNamed name attributes enclosing)
  if (← get).seen.contains qualified then ofStep (reference setup qualified)
  else
    ofStep (modify (Context.enter qualified attributes))
    recordBody setup convert qualified attributes

/-- Converts a node, and the nodes that it leads to by another conversion. -/
def body (setup : Setup) (convert : Converter) (schema : Json) (enclosing : Text) :
    Attempt Json.Entries :=
  match Schema.shape schema with
  | .malformed fault => throw (.fault (.schema fault))
  | .union members => union setup convert members enclosing
  | .name name => typeName setup convert name enclosing
  | .wrapper inner => convert inner enclosing
  | .primitive p attributes => do
    let typed ← ofExcept (Scalar.applyKind (.str p.text) (Schema.logicalType? attributes).isSome
      (Keywords.ofLogicalType setup.options attributes))
    pure (Keywords.annotate attributes typed)
  | .leaf kind name attributes => ofStep (leaf setup.options kind name attributes enclosing)
  | .array items attributes =>
    convert items enclosing >>= (pure ∘ arrayKeywords setup.options attributes)
  | .map values attributes =>
    convert values enclosing >>= (pure ∘ mapKeywords setup.options attributes)
  | .reference name attributes =>
    typeName setup convert name enclosing >>= (pure ∘ referenceKeywords setup.options attributes)
  | .record name attributes => record setup convert name attributes enclosing

/-- Converts a node while no more than a budget of node conversions is under way at once. -/
def node (setup : Setup) : Nat → Converter
  | 0 => fun _ _ => throw .exhausted
  | budget + 1 => body setup (node setup budget)

/-! ### What is spelled out does the same -/

variable {setup : Setup} {convert : Converter} {enclosing : Text}

/-- A conversion of some node, as another conversion calls it, does what the node's own does. -/
def Converts (setup : Setup) (convert : Converter) (schema : Json) : Prop :=
  ∀ enclosing, Does (convert schema enclosing) (Conversion.node setup schema enclosing)

/-- An enum or a fixed type, wherever it is stored, is converted as it is where it stands. -/
def ConvertsLeaves (setup : Setup) (convert : Converter) : Prop :=
  ∀ kind name attributes, shape (.obj attributes) = .leaf kind name attributes →
    Converts setup convert (.obj attributes)

theorem outcome_stored (qualified : Text) (c : Context) :
    outcome (stored qualified) c =
      match c.named.get? qualified with
      | some attributes => (.ok attributes, c)
      | none => (.error (.unnamed qualified), c) := by
  show outcome (get >>= fun _ => _) c = _
  rw [outcome_bind]
  show outcome (match c.named.get? qualified with
    | some attributes => pure attributes
    | none => throw (.unnamed qualified)) c = _
  cases c.named.get? qualified <;> rfl

/-- No primitive type is refused. -/
theorem applyKind_of_primitive {t : Text} {p : Primitive} (h : Primitive.ofText? t = some p)
    (claimed : Bool) (es : Json.Entries) :
    Scalar.applyKind (.str t) claimed es = .ok ((Scalar.primitive p).apply claimed es) := by
  have ht : Scalar.ofText? t = some (.primitive p) := by
    unfold Scalar.ofText? TypeName.ofText
    rw [h]
  unfold Scalar.applyKind Scalar.ofKind?
  dsimp only
  rw [ht]

/-- A name of what has not been entered leads to an enum or a fixed type. -/
theorem stored_of_unseen {name qualified : Text} {c : Context} (hc : c.Sound)
    (hr : c.resolve name enclosing = .ok qualified) (hq : qualified ∉ c.seen) :
    ∃ kind n attributes, c.named.get? qualified = some attributes
      ∧ shape (.obj attributes) = .leaf kind n attributes := by
  obtain ⟨attributes, ha⟩ := Context.resolve_ok hr
  obtain ⟨kind, n, hs⟩ := hc.leaf_of_unseen ha hq
  exact ⟨kind, n, attributes, ha, hs⟩

theorem does_typeName (hleaves : ConvertsLeaves setup convert) (name : Text) :
    Does (typeName setup convert name enclosing) (Conversion.typeName setup name enclosing) := by
  intro c hc
  unfold EndsAs typeName
  cases hp : Primitive.ofText? name with
  | some p =>
    rw [Option.isSome_some, if_pos rfl, applyKind_of_primitive hp, outcome_typeName, hp]
    rfl
  | none =>
    rw [Option.isSome_none, if_neg Bool.false_ne_true, outcome_bind, outcome_ofStep,
      Step.outcome_inspect]
    cases hr : c.resolve name enclosing with
    | error fault =>
      rw [outcome_typeName, hp, hr]
      rfl
    | ok qualified =>
      show outcome (get >>= fun _ => _) c = _
      rw [outcome_bind]
      show outcome (if c.seen.contains qualified then ofStep (reference setup qualified) else _) c = _
      by_cases hq : qualified ∈ c.seen
      · rw [if_pos (List.contains_iff_mem.2 hq), outcome_typeName, hp, hr]
        dsimp only
        rw [if_pos hq]
        rfl
      · rw [if_neg (mt List.contains_iff_mem.1 hq)]
        obtain ⟨kind, n, attributes, ha, hs⟩ := stored_of_unseen hc hr hq
        rw [outcome_bind, outcome_stored, ha, outcome_typeName_of_unseen hc hp hr hq ha]
        exact hleaves kind n attributes hs _ c hc

theorem does_resolveKind (schema : Json) :
    Does (resolveKind schema enclosing)
      (Step.inspect (Context.resolveKind · schema enclosing)) := by
  intro c hc
  unfold EndsAs resolveKind Context.resolveKind
  rw [Step.outcome_inspect, outcome_bind]
  cases Schema.kind schema with
  | error fault => rfl
  | ok k =>
    rw [outcome_ofExcept_ok]
    cases k with
    | str t =>
      by_cases hunion : t = Text.ofString "union"
      · simp only [hunion, if_true]
        rfl
      · simp only [bind, Except.bind, hunion, if_false]
        cases TypeName.ofText t with
        | defined name =>
          dsimp only
          show outcome (ofStep _ >>= _) c = _
          rw [outcome_bind, outcome_ofStep, Step.outcome_inspect]
          cases hr : c.resolve name enclosing with
          | error fault => rfl
          | ok qualified =>
            obtain ⟨attributes, ha⟩ := Context.resolve_ok hr
            show outcome (stored qualified >>= _) c = _
            rw [outcome_bind, outcome_stored, ha]
            dsimp only
            rw [outcome_ofExcept, ha]
            rfl
        | _ => rfl
    | _ => rfl

/-- A scalar that is told by its kind has a type. -/
theorem does_nullableScalar (options : Options) (member : Json) {kind : Json} {p : Primitive}
    (h : primitiveOfKind? kind = some p) :
    Does (nullableScalar options member kind)
      (pure (Keywords.nullableScalar options member p)) := by
  have htype : SchemaType.ofKind kind = .ok p.schemaType.text := by
    cases kind with
    | str t =>
      have hp : Primitive.ofText? t = some p := h
      unfold SchemaType.ofKind
      simp only [hp]
    | _ => cases h
  intro c _
  unfold EndsAs nullableScalar Keywords.nullableScalar
  rw [htype]
  cases member with
  | obj attributes =>
    dsimp only
    cases Schema.logicalType? attributes <;> rfl
  | _ => rfl

theorem does_branches {nodes : List Json} (h : ∀ j ∈ nodes, Converts setup convert j) :
    Does (branches convert nodes enclosing) (Conversion.branches setup nodes enclosing) := by
  induction nodes with
  | nil =>
    rw [branches_nil]
    exact .pure _
  | cons j js ih =>
    rw [branches_cons]
    refine (h j List.mem_cons_self enclosing).bind (evolving_node _ _) fun first => ?_
    refine (ih fun i hi => h i (List.mem_cons_of_mem _ hi)).map ?_ _
    exact evolving_branches fun i _ => evolving_node i

theorem does_union {members : List Json} (h : ∀ j ∈ members, Converts setup convert j) :
    Does (union setup convert members enclosing) (Conversion.union setup members enclosing) := by
  unfold union
  cases hu : unionForm members with
  | fault fault =>
    rw [union_of_fault hu]
    exact .throw fault
  | choice =>
    rw [union_of_choice hu]
    exact (does_branches h).map (evolving_branches fun i _ => evolving_node i) _
  | nullable member =>
    have hmember := h member (mem_of_unionForm hu) enclosing
    rw [union_of_nullable hu]
    dsimp only
    split
    · exact hmember
    · refine (does_resolveKind member).bind (.inspect _) fun kind => ?_
      cases hp : primitiveOfKind? kind with
      | some p => exact does_nullableScalar _ _ hp
      | none => exact hmember.map (evolving_node _ _) _

theorem does_fields {record : Text} {list : List Json}
    (h : ∀ field ∈ list, ∀ attributes name type,
      fieldParts record field = .ok (attributes, name, type) → Converts setup convert type)
    (properties : Json.Entries) (required : List Json) :
    Does (fields convert record list properties required)
      (Conversion.fields setup record list properties required) := by
  induction list generalizing properties required with
  | nil =>
    rw [fields_nil]
    exact .pure _
  | cons field more ih =>
    unfold fields
    cases hp : fieldParts record field with
    | error fault =>
      rw [fields_of_fault hp]
      exact .throw fault
    | ok parts =>
      obtain ⟨attributes, name, type⟩ := parts
      rw [fields_cons hp]
      show Does (convert type (Name.namespaceOf record) >>= _) _
      refine (h field List.mem_cons_self _ _ _ hp _).bind (evolving_node _ _) fun property => ?_
      refine (Does.ofStep _).bind (.ofExcept _) fun nullable => ?_
      refine (Does.ofStep _).bind (.ofExcept _) fun added => ?_
      exact ih (fun f hf => h f (List.mem_cons_of_mem _ hf)) _ _

theorem does_recordBody {qualified : Text} {attributes : Json.Entries}
    (h : ∀ list, fieldList qualified attributes = .ok list → ∀ field ∈ list.1, ∀ es name type,
      fieldParts qualified field = .ok (es, name, type) → Converts setup convert type) :
    Does (recordBody setup convert qualified attributes)
      (Conversion.recordBody setup qualified attributes) := by
  unfold recordBody Conversion.recordBody
  cases hl : fieldList qualified attributes with
  | error fault => exact .throw fault
  | ok list =>
    show Does (fields convert qualified list.1 [] [] >>= _)
      (Conversion.fields setup qualified list.1 [] [] >>= _)
    refine (does_fields (h list hl) [] []).bind ?_ ?_
    · exact evolving_fields (fun field hf es name type hp => evolving_node type) [] []
    · intro made c hc
      rfl

theorem does_record {schema : Json} {name : Text} {attributes : Json.Entries}
    (hs : shape schema = .record name attributes)
    (h : ∀ j, Child j schema → Converts setup convert j) :
    Does (record setup convert name attributes enclosing)
      (Conversion.node setup schema enclosing) := by
  intro c hc
  unfold EndsAs record
  rw [outcome_record hs, outcome_bind, outcome_ofExcept]
  cases hq : Name.ofNamed name attributes enclosing with
  | error fault => rfl
  | ok qualified =>
    show outcome (get >>= fun _ => _) c = _
    rw [outcome_bind]
    show outcome (if c.seen.contains qualified then ofStep (reference setup qualified) else _) c = _
    dsimp only
    by_cases hseen : qualified ∈ c.seen
    · rw [if_pos (List.contains_iff_mem.2 hseen), if_pos hseen]
      rfl
    · rw [if_neg (mt List.contains_iff_mem.1 hseen), if_neg hseen, outcome_bind]
      refine does_recordBody ?_ _ (hc.enter (defines_of_record hs hq) hseen)
      intro list hl field hf es n type hp
      exact h type (child_of_field hs (fieldList_ok hl) hf hp)

/-- The conversion of a node calls that of a child, or that of an enum or a fixed type that is stored
under a name. -/
theorem does_body {schema : Json} (hleaves : ConvertsLeaves setup convert)
    (h : ∀ j, Child j schema → Converts setup convert j) :
    Does (body setup convert schema enclosing) (Conversion.node setup schema enclosing) := by
  unfold body
  cases hs : shape schema with
  | malformed fault =>
    rw [node_of_malformed hs]
    exact .throw _
  | union members =>
    rw [node_of_union hs]
    exact does_union fun j hj => h j (.member hs hj)
  | name name =>
    rw [node_of_name hs]
    exact does_typeName hleaves name
  | wrapper inner =>
    rw [node_of_wrapper hs]
    exact h inner (.inner hs) enclosing
  | primitive p attributes =>
    rw [node_of_primitive hs]
    dsimp only
    rw [applyKind_of_primitive (Primitive.ofText?_text p)]
    exact .pure _
  | leaf kind name attributes =>
    rw [node_of_leaf hs]
    exact .ofStep _
  | array items attributes =>
    rw [node_of_array hs]
    exact (h items (.items hs) enclosing).map (evolving_node _ _) _
  | map values attributes =>
    rw [node_of_map hs]
    exact (h values (.values hs) enclosing).map (evolving_node _ _) _
  | reference name attributes =>
    rw [node_of_reference hs]
    exact (does_typeName hleaves name).map (evolving_typeName _) _
  | record name attributes => exact does_record hs h

/-- The conversion of an enum or a fixed type calls no other. -/
theorem body_of_leaf (setup : Setup) (convert : Converter) {kind : Leaf} {name : Text}
    {attributes : Json.Entries} (hs : shape (.obj attributes) = .leaf kind name attributes)
    (enclosing : Text) :
    body setup convert (.obj attributes) enclosing =
      ofStep (Conversion.node setup (.obj attributes) enclosing) := by
  unfold body
  rw [hs, node_of_leaf hs]

/-- An enum or a fixed type takes one conversion. -/
theorem convertsLeaves_node (setup : Setup) {budget : Nat} (hb : 1 ≤ budget) :
    ConvertsLeaves setup (node setup budget) := by
  intro kind name attributes hs enclosing
  obtain ⟨rest, rfl⟩ := Nat.exists_eq_add_of_le' hb
  show Does (body setup (node setup rest) (.obj attributes) enclosing) _
  rw [body_of_leaf setup _ hs]
  exact .ofStep _

/-- **A budget of two beyond the depth suffices.**  One conversion is under way for the node itself
and one for each level below it, and one more for what a name at the bottom leads to. -/
theorem does_node (setup : Setup) (schema : Json) (enclosing : Text) {budget : Nat}
    (hb : schema.depth + 2 ≤ budget) :
    Does (node setup budget schema enclosing) (Conversion.node setup schema enclosing) := by
  induction schema using Schema.induction generalizing budget enclosing with
  | step schema ih =>
    obtain ⟨rest, rfl⟩ := Nat.exists_eq_add_of_le' (show 1 ≤ budget by omega)
    show Does (body setup (node setup rest) schema enclosing) _
    refine does_body (convertsLeaves_node setup (by omega)) fun j hj inner => ?_
    have hdepth := hj.depth_lt
    exact ih j hj inner (by omega)

/-- The name of an enum takes two conversions, its own and that of the enum. -/
example :
    let suit : Json.Entries := [(.text "type", "enum"), (.text "name", "Suit")]
    let c : Context := ⟨[], [], [("Suit", suit)]⟩
    (outcome (node Options.strict 1 "Suit" []) c).1 = .error .exhausted :=
  rfl

end Bounded

open Conversion in
/-- **Every conversion terminates.**  From every context of a session, whatever is converted within
whatever namespace: a budget of conversions that are under way at once is not used up if it exceeds the
depth of a node by two, nothing that is looked up is missing, and a larger budget changes nothing.  A
name is a reference to what has been entered, or it leads to an enum or a fixed type, never to a record,
and the conversion of these calls no other. -/
theorem Session.conversions_terminate (setup : Setup) (c : Context) (hc : c.Reachable setup)
    (enclosing : Text) (budget : Nat) :
    (∀ schema : Json, schema.depth + 2 ≤ budget →
        Attempt.EndsAs (Bounded.node setup budget schema enclosing)
          (node setup schema enclosing) c)
      ∧ (∀ members : List Json, (Json.arr members).depth + 1 ≤ budget →
        Attempt.EndsAs (Bounded.union setup (Bounded.node setup budget) members enclosing)
          (union setup members enclosing) c)
      ∧ (∀ (qualified : Text) (attributes : Json.Entries), (Json.obj attributes).depth ≤ budget →
        Attempt.EndsAs (Bounded.recordBody setup (Bounded.node setup budget) qualified attributes)
          (recordBody setup qualified attributes) c)
      ∧ (∀ name : Text, 1 ≤ budget →
        Attempt.EndsAs (Bounded.typeName setup (Bounded.node setup budget) name enclosing)
          (typeName setup name enclosing) c)
      ∧ ∀ name qualified : Text, Primitive.ofText? name = none →
          c.resolve name enclosing = .ok qualified →
        (qualified ∈ c.seen ∧ Step.outcome (typeName setup name enclosing) c =
            ((setup.draftFor "ref_prefix").map (Keywords.reference · qualified), c))
          ∨ (qualified ∉ c.seen ∧ ∃ kind n attributes, c.named.get? qualified = some attributes
            ∧ Schema.shape (.obj attributes) = .leaf kind n attributes
            ∧ Step.outcome (typeName setup name enclosing) c =
              Step.outcome (node setup (.obj attributes) (Name.namespaceOf qualified)) c
            ∧ ∀ convert, Bounded.body setup convert (.obj attributes) (Name.namespaceOf qualified) =
              .ofStep (node setup (.obj attributes) (Name.namespaceOf qualified))) := by
  refine ⟨fun schema hb => ?_, fun members hb => ?_, fun qualified attributes hb => ?_,
    fun name hb => ?_, fun name qualified hp hr => ?_⟩
  · exact Bounded.does_node setup schema enclosing hb c hc.sound
  · refine Bounded.does_union (fun j hj inner => ?_) c hc.sound
    have hdepth := Json.depth_lt_of_mem hj
    exact Bounded.does_node setup j inner (by omega)
  · refine Bounded.does_recordBody (fun list hl field hf es name type hp inner => ?_) c hc.sound
    obtain ⟨rfl, -, ht⟩ := fieldParts_ok hp
    have hlist := Json.depth_lt_of_attr? (fieldList_ok hl)
    have hfield := Json.depth_lt_of_mem hf
    have htype := Json.depth_lt_of_attr? ht
    exact Bounded.does_node setup type inner (by omega)
  · exact Bounded.does_typeName (Bounded.convertsLeaves_node setup hb) name c hc.sound
  · by_cases hq : qualified ∈ c.seen
    · refine .inl ⟨hq, ?_⟩
      rw [outcome_typeName, hp, hr]
      dsimp only
      rw [if_pos hq, outcome_reference]
    · obtain ⟨kind, n, attributes, ha, hs⟩ := Bounded.stored_of_unseen hc.sound hr hq
      exact .inr ⟨hq, kind, n, attributes, ha, hs,
        outcome_typeName_of_unseen hc.sound hp hr hq ha,
        fun convert => Bounded.body_of_leaf setup convert hs _⟩

/-- A hand of cards, with the hand that plays next. -/
def hand : Json :=
  .obj [(.text "type", "record"), (.text "name", "Hand"), (.text "fields", .arr [
    .obj [(.text "name", "trump"), (.text "type", .obj [(.text "type", "enum"),
      (.text "name", "Suit"), (.text "symbols", .arr ["hearts", "spades"])])],
    .obj [(.text "name", "next"), (.text "type", .arr ["null", "Hand"])]])]

open Conversion in
theorem Session.conversions_terminate_hand :
    let c := (Session.run Options.strict Context.empty [.node hand []]).2
    hand.depth + 2 ≤ 7
      ∧ Attempt.EndsAs (Bounded.node Options.strict 7 hand []) (node Options.strict hand []) c
      ∧ Attempt.EndsAs (Bounded.node Options.strict 9 hand []) (node Options.strict hand []) c
      ∧ Attempt.EndsAs
        (Bounded.union Options.strict (Bounded.node Options.strict 2) ["null", "Hand"] [])
        (union Options.strict ["null", "Hand"] []) c
      ∧ Attempt.EndsAs (Bounded.recordBody Options.strict (Bounded.node Options.strict 2) "Empty"
          [(.text "fields", .arr [])])
        (recordBody Options.strict "Empty" [(.text "fields", .arr [])]) c
      ∧ Attempt.EndsAs (Bounded.typeName Options.strict (Bounded.node Options.strict 2) "Suit" [])
        (typeName Options.strict "Suit" []) c
      ∧ Step.outcome (typeName Options.strict "Hand" []) c =
        (.ok (Keywords.reference Options.strict.draft "Hand"), c)
      ∧ ∃ attributes, c.named.get? ("Suit" : Text) = some attributes
        ∧ Step.outcome (typeName Options.strict "Suit" []) c =
          Step.outcome (node Options.strict (.obj attributes) []) c := by
  intro c
  have hc : c.Reachable Options.strict := ⟨_, rfl⟩
  obtain ⟨hnode, -, -, -, -⟩ := conversions_terminate Options.strict c hc [] 7
  obtain ⟨hlarger, -, -, -, -⟩ := conversions_terminate Options.strict c hc [] 9
  obtain ⟨-, hunion, hrecord, hname, hresolved⟩ :=
    conversions_terminate Options.strict c hc [] 2
  have hseen : c.seen = [Text.ofString "Hand"] := by decide +kernel
  have hmeans : (c.resolve "Hand" []).toOption = some "Hand"
      ∧ (c.resolve "Suit" []).toOption = some "Suit" := by
    decide +kernel
  have hok : ∀ (x : Except Fault Text) q, x.toOption = some q → x = .ok q := by
    intro x q h
    cases x <;> cases h
    rfl
  refine ⟨by decide, hnode hand (by decide), hlarger hand (by decide), hunion _ (by decide),
    hrecord _ _ (by decide), hname "Suit" (by decide), ?_, ?_⟩
  · rcases hresolved "Hand" "Hand" rfl (hok _ _ hmeans.1) with ⟨-, href⟩ | ⟨hunseen, -⟩
    · exact href
    · rw [hseen] at hunseen
      exact absurd hunseen (by decide)
  · rcases hresolved "Suit" "Suit" rfl (hok _ _ hmeans.2) with
      ⟨hentered, -⟩ | ⟨-, _, _, attributes, ha, -, hleaf, -⟩
    · rw [hseen] at hentered
      exact absurd hentered (by decide)
    · exact ⟨attributes, ha, hleaf⟩

end AvroJsonSchema
