import AvroJsonSchema.Proofs.Walk

/-!
# Outlines

A conversion decides what is written before it is written.  Which node becomes a reference, which
record is finished when and where the conversion stops depend on the schema and on how unions are
flattened; the draft and the other switches only tell how what has been decided is written.  So a
conversion is outlined first, and the outline is written afterwards: the two together are the
conversion, context by context and fault by fault.

* **`Outline`**: what is written of a node.  **`Outline.write`**: its keywords under some options.
* **`Outlining.node`**: the outline of a node, with the records that are finished on the way.
* **`Ledger.written`**: the context that the finished records amount to under some options.
* **`Conversion.written_node`**: a node is converted by outlining it and writing the outline.
* **`Document.ofSchema_eq_written`**: so is a whole schema.
-/

namespace AvroJsonSchema

open Conversion

namespace Outline

/-- What is written of a node below which nothing is written. -/
inductive Flat where
  | scalar (scalar : Scalar) (attributes : Json.Entries)
  | enum (symbols : List Json) (attributes : Json.Entries)
  /-- A reference to the record of a full name. -/
  | reference (qualified : Text)

/-- What is written of a field beside the schema of its type. -/
structure Field where
  attributes : Json.Entries
  name : Json
  /-- The name as a key among the properties. -/
  key : Json.Key
  nullable : Bool

end Outline

/-- What is written of a node. -/
inductive Outline where
  | flat (flat : Outline.Flat)
  /-- A reference to a named type with keywords of its own. -/
  | annotated (attributes : Json.Entries) (target : Outline.Flat)
  /-- A union of null and a scalar as a list of two types. -/
  | nullable (member : Json) (p : Primitive)
  | array (attributes : Json.Entries) (items : Outline)
  | map (attributes : Json.Entries) (values : Outline)
  | record (qualified : Text) (attributes : Json.Entries) (fields : List (Outline.Field × Outline))
  | choice (branches : List Outline)

namespace Outline

/-- Induction along an outline. -/
theorem induction {P : Outline → Prop} (flat : ∀ f, P (.flat f))
    (annotated : ∀ attributes target, P (.annotated attributes target))
    (nullable : ∀ member p, P (.nullable member p))
    (array : ∀ attributes items, P items → P (.array attributes items))
    (map : ∀ attributes values, P values → P (.map attributes values))
    (record : ∀ qualified attributes fields, (∀ field ∈ fields, P field.2) →
      P (.record qualified attributes fields))
    (choice : ∀ branches, (∀ branch ∈ branches, P branch) → P (.choice branches))
    (outline : Outline) : P outline := by
  refine @Outline.rec P (fun fields => ∀ field ∈ fields, P field.2)
    (fun branches => ∀ branch ∈ branches, P branch) (fun field => P field.2)
    flat annotated nullable array map record choice ?_ ?_ ?_ ?_ ?_ outline
  · simp
  · intro field fields hfield hfields
    exact List.forall_mem_cons.2 ⟨hfield, hfields⟩
  · simp
  · intro branch branches hbranch hbranches
    exact List.forall_mem_cons.2 ⟨hbranch, hbranches⟩
  · intro field outline houtline
    exact houtline

/-! ### Writing -/

/-- The keywords of a node below which nothing is written. -/
def Flat.write (options : Options) : Flat → Json.Entries
  | .scalar s attributes =>
    Keywords.annotate attributes (Keywords.ofScalar options attributes s)
  | .enum symbols attributes =>
    Keywords.annotate attributes
      ((Keywords.withType options attributes .string).put "enum" (.arr symbols))
  | .reference qualified => Keywords.reference options.draft qualified

/-- The names of the fields that have to be there. -/
def requiredNames : List (Field × Outline) → List Json
  | [] => []
  | (field, _) :: fields =>
    if field.nullable then requiredNames fields else field.name :: requiredNames fields

mutual

/-- The keywords of an outline. -/
def write (options : Options) : Outline → Json.Entries
  | .flat f => f.write options
  | .annotated attributes target => referenceKeywords options attributes (target.write options)
  | .nullable member p => Keywords.nullableScalar options member p
  | .array attributes items => arrayKeywords options attributes (write options items)
  | .map attributes values => mapKeywords options attributes (write options values)
  | .record qualified attributes fields =>
    recordKeywords options qualified attributes (writeFields options fields []) (requiredNames fields)
  | .choice branches => Keywords.oneOf (writeBranches options branches)

/-- The branches of a choice. -/
def writeBranches (options : Options) : List Outline → List Json
  | [] => []
  | branch :: branches => .obj (write options branch) :: writeBranches options branches

/-- The properties of some fields put among those before them. -/
def writeFields (options : Options) : List (Field × Outline) → Json.Entries → Json.Entries
  | [], properties => properties
  | (field, type) :: fields, properties =>
    writeFields options fields
      (properties.set field.key (.obj (Keywords.decorate field.attributes (write options type))))

end

/-- The outline of null alone. -/
def null : Outline :=
  .flat (.scalar (.primitive .null) [])

/-- The outline of an enum, of which the symbols have to be texts, or of a fixed type. -/
def Flat.ofLeaf (kind : Leaf) (qualified : Text) (attributes : Json.Entries) : Except Fault Flat :=
  match kind with
  | .enum => do
    let symbols ← Schema.require attributes "symbols" []
    match Keywords.symbols? symbols with
    | some items => pure (.enum items attributes)
    | none => .error (SchemaFault.symbolsNotTexts qualified)
  | .fixed => .ok (.scalar .fixed attributes)

/-- The key that the name of a field is used as. -/
def Field.keyOf (name : Json) : Except Fault Json.Key :=
  match name.toKey? with
  | none => .error (.unusableKey name)
  | some key => .ok key

end Outline

/-! ### Outlining -/

/-- What outlining has met so far: the records entered, the named types, and the records finished
with their outlines. -/
structure Ledger where
  seen : List Text
  named : Table Text Json.Entries
  /-- The records that have been left, in order of completion. -/
  finished : List (Text × Outline)

namespace Ledger

/-- Nothing met yet. -/
def empty : Ledger := ⟨[], [], []⟩

/-- What a name or a kind is looked up in. -/
def context (ledger : Ledger) : Context :=
  ⟨ledger.seen, [], ledger.named⟩

def addNamed (name : Text) (attributes : Json.Entries) (ledger : Ledger) : Ledger :=
  { ledger with named := ledger.named.set name attributes }

def enter (name : Text) (attributes : Json.Entries) (ledger : Ledger) : Ledger :=
  { ledger.addNamed name attributes with seen := ledger.seen ++ [name] }

def finish (name : Text) (outline : Outline) (ledger : Ledger) : Ledger :=
  { ledger with finished := ledger.finished ++ [(name, outline)] }

/-- The finished records as they are written. -/
def definitions (options : Options) (ledger : Ledger) : Table Text Json.Entries :=
  ledger.finished.map fun e => (e.1, e.2.write options)

/-- The context that comes out of some definitions when the finished records are added to them. -/
def written (options : Options) (before : Table Text Json.Entries) (ledger : Ledger) : Context :=
  ⟨ledger.seen, before.merge (ledger.definitions options), ledger.named⟩

/-- A record that is finished is defined by what is written of it. -/
theorem written_finish (options : Options) (before : Table Text Json.Entries) (ledger : Ledger)
    (name : Text) (outline : Outline) :
    (ledger.finish name outline).written options before =
      (ledger.written options before).define name (outline.write options) := by
  simp [written, finish, definitions, Context.define, Table.merge]

end Ledger

/-- A part of outlining: it changes the ledger, and yields a value unless it fails. -/
abbrev Outlining := ExceptT Fault (StateM Ledger)

namespace Outlining

variable {α β : Type}

/-- The outcome of a part of outlining, and the ledger it leaves. -/
def outcome (y : Outlining α) (ledger : Ledger) : Except Fault α × Ledger :=
  y.run.run ledger

/-- A part that looks at no ledger. -/
def ofExcept (y : Except Fault α) : Outlining α :=
  match y with
  | .ok a => pure a
  | .error fault => throw fault

/-- A part that only looks names up. -/
def inspect (look : Context → Except Fault α) : Outlining α := do
  ofExcept (look (← get).context)

theorem outcome_bind (y : Outlining α) (g : α → Outlining β) (ledger : Ledger) :
    outcome (y >>= g) ledger =
      match outcome y ledger with
      | (.ok a, ledger') => outcome (g a) ledger'
      | (.error fault, ledger') => (.error fault, ledger') := by
  show (ExceptT.bind y g ledger : Except Fault β × Ledger) = _
  simp only [ExceptT.bind, ExceptT.mk, bind, StateT.bind]
  show ExceptT.bindCont g (outcome y ledger).1 (outcome y ledger).2 = _
  rcases outcome y ledger with ⟨result, ledger'⟩
  cases result <;> rfl

theorem outcome_ofExcept (y : Except Fault α) (ledger : Ledger) :
    outcome (ofExcept y) ledger = (y, ledger) := by
  cases y <;> rfl

theorem outcome_inspect (look : Context → Except Fault α) (ledger : Ledger) :
    outcome (inspect look) ledger = (look ledger.context, ledger) := by
  show outcome (get >>= fun l => ofExcept (look l.context)) ledger = _
  rw [outcome_bind]
  exact outcome_ofExcept _ _

open Outline

/-- Outlines an enum or a fixed type, which from then on is defined unless its full name is
empty. -/
def leaf (kind : Leaf) (name : Text) (attributes : Json.Entries) (enclosing : Text) :
    Outlining Flat := do
  let qualified ← ofExcept (Name.ofNamed name attributes enclosing)
  unless qualified.isEmpty do modify (Ledger.addNamed qualified attributes)
  ofExcept (Flat.ofLeaf kind qualified attributes)

/-- Outlines a type name. -/
def typeName (name enclosing : Text) : Outlining Flat :=
  match Primitive.ofText? name with
  | some p => pure (.scalar (.primitive p) [])
  | none => do
    let qualified ← inspect (Context.resolve · name enclosing)
    let ledger ← get
    if ledger.seen.contains qualified then pure (.reference qualified)
    else
      match Schema.objectShape ((ledger.named.get? qualified).getD []) with
      | .leaf kind name attributes => leaf kind name attributes (Name.namespaceOf qualified)
      | _ => pure (.reference qualified)

mutual

/-- Outlines a node within a namespace. -/
def node (flatten : Bool) (schema : Json) (enclosing : Text) : Outlining Outline :=
  match h : Schema.shape schema with
  | .malformed fault => throw (.schema fault)
  | .union members =>
    have : schema.size = Json.sizeOfItems members + 1 := by
      rw [Schema.eq_arr_of_shape h, Json.size]
    union flatten members enclosing
  | .name name => typeName name enclosing >>= (pure ∘ .flat)
  | .wrapper inner =>
    have := Schema.size_lt_of_wrapper h
    node flatten inner enclosing
  | .primitive p attributes => pure (.flat (.scalar (.primitive p) attributes))
  | .leaf kind name attributes => leaf kind name attributes enclosing >>= (pure ∘ .flat)
  | .array items attributes =>
    have := Schema.size_lt_of_array h
    node flatten items enclosing >>= (pure ∘ .array attributes)
  | .map values attributes =>
    have := Schema.size_lt_of_map h
    node flatten values enclosing >>= (pure ∘ .map attributes)
  | .reference name attributes => typeName name enclosing >>= (pure ∘ .annotated attributes)
  | .record name attributes => do
    have hs := Schema.eq_obj_of_record h
    let qualified ← ofExcept (Name.ofNamed name attributes enclosing)
    if (← get).seen.contains qualified then pure (.flat (.reference qualified))
    else
      modify (Ledger.enter qualified attributes)
      let list ← ofExcept (fieldList qualified attributes)
      have : Json.sizeOfItems list.1 < schema.size := hs ▸ list.2
      let made ← fields flatten qualified list.1
      modify (Ledger.finish qualified (.record qualified attributes made))
      pure (.record qualified attributes made)
termination_by 3 * schema.size

/-- Outlines a union within a namespace. -/
def union (flatten : Bool) (members : List Json) (enclosing : Text) : Outlining Outline :=
  match h : unionForm members with
  | .fault fault => throw fault
  | .choice => branches flatten members enclosing >>= (pure ∘ .choice)
  | .nullable member =>
    have : member.size ≤ Json.sizeOfItems members :=
      Json.size_le_sizeOfItems (mem_of_unionForm h)
    if flatten then node flatten member enclosing
    else do
      let kind ← inspect (Context.resolveKind · member enclosing)
      match primitiveOfKind? kind with
      | some p => pure (.nullable member p)
      | none => node flatten member enclosing >>= (pure ∘ fun branch => .choice [null, branch])
termination_by 3 * Json.sizeOfItems members + 2

/-- Outlines some nodes one after the other. -/
def branches (flatten : Bool) (nodes : List Json) (enclosing : Text) : Outlining (List Outline) :=
  match nodes with
  | [] => pure []
  | j :: js => do
    have := Json.sizeOfItems_cons j js
    have := Json.size_pos j
    let first ← node flatten j enclosing
    let rest ← branches flatten js enclosing
    pure (first :: rest)
termination_by 3 * Json.sizeOfItems nodes + 1

/-- Outlines the fields of a record one after the other. -/
def fields (flatten : Bool) (record : Text) (list : List Json) : Outlining (List (Field × Outline)) :=
  match list with
  | [] => pure []
  | field :: more =>
    match h : fieldParts record field with
    | .error fault => throw fault
    | .ok (attributes, name, type) => do
      have := size_lt_of_fieldParts h
      have := Json.sizeOfItems_cons field more
      let property ← node flatten type (Name.namespaceOf record)
      let nullable ← ofExcept (Schema.isNullable type)
      let key ← ofExcept (Field.keyOf name)
      let rest ← fields flatten record more
      pure ((⟨attributes, name, key, nullable⟩, property) :: rest)
termination_by 3 * Json.sizeOfItems list + 1

end

end Outlining

/-! ### Outlining and then writing -/

namespace Step

open Outlining (outcome_bind outcome_ofExcept outcome_inspect)

variable {α β γ δ : Type} {o : Options} {x : Step α} {y : Outlining β} {w : β → α}

/-- A part of a conversion does what a part of outlining does, written by a function. -/
def Writes (o : Options) (x : Step α) (y : Outlining β) (w : β → α) : Prop :=
  ∀ (before : Table Text Json.Entries) (ledger : Ledger),
    x.outcome (ledger.written o before) =
      ((y.outcome ledger).1.map w, (y.outcome ledger).2.written o before)

theorem Writes.pure {a : α} {b : β} (h : a = w b) : Writes o (pure a) (pure b) w :=
  h ▸ fun _ _ => rfl

theorem Writes.throw (fault : Fault) : Writes o (throw fault) (throw fault) w :=
  fun _ _ => rfl

theorem Writes.ofExcept {a : Except Fault α} {b : Except Fault β}
    (h : a = b.map w) : Writes o (ofExcept a) (Outlining.ofExcept b) w := by
  intro before ledger
  rw [Step.outcome_ofExcept, Outlining.outcome_ofExcept, h]

theorem Writes.modify {f : Context → Context} {g : Ledger → Ledger}
    (h : ∀ before ledger, f (ledger.written o before) = (g ledger).written o before) :
    Writes o (modify f : Step Unit) (modify g : Outlining Unit) id := by
  intro before ledger
  rw [outcome_modify, h]
  rfl

theorem Writes.bind (hx : Writes o x y w) {f : α → Step γ} {g : β → Outlining δ} {w' : δ → γ}
    (h : ∀ b, Writes o (f (w b)) (g b) w') : Writes o (x >>= f) (y >>= g) w' := by
  intro before ledger
  rw [Step.outcome_bind, Outlining.outcome_bind, hx before ledger]
  rcases y.outcome ledger with ⟨result, ledger'⟩
  cases result with
  | error fault => rfl
  | ok b => exact h b before ledger'

theorem Writes.bind_same {e : Except Fault β} {f : β → Step γ} {g : β → Outlining δ} {w' : δ → γ}
    (h : ∀ b, e = .ok b → Writes o (f b) (g b) w') :
    Writes o (Step.ofExcept e >>= f) (Outlining.ofExcept e >>= g) w' := by
  cases e with
  | error fault => exact fun _ _ => rfl
  | ok b => exact h b rfl

theorem Writes.map (hx : Writes o x y w) {f : α → γ} {g : β → δ} {w' : δ → γ}
    (h : ∀ b, f (w b) = w' (g b)) :
    Writes o (x >>= (Pure.pure ∘ f)) (y >>= (Pure.pure ∘ g)) w' := by
  refine hx.bind fun b => ?_
  rw [Function.comp_apply, h]
  exact .pure rfl

/-- A part of outlining that goes on by itself may be written at once. -/
theorem Writes.outlined (hx : Writes o x y w) {g : β → δ} {w' : δ → α} (h : ∀ b, w b = w' (g b)) :
    Writes o x (y >>= (Pure.pure ∘ g)) w' := by
  have hmap := hx.map (f := id) h
  rwa [show (Pure.pure ∘ id : α → Step α) = Pure.pure from rfl, bind_pure] at hmap

/-- What is looked up by name does not depend on how the finished records are written. -/
theorem Writes.inspect {look : Context → Except Fault β}
    (h : ∀ before (ledger : Ledger), look (ledger.written o before) = look ledger.context) :
    Writes o (Step.inspect look) (Outlining.inspect look) id := by
  intro before ledger
  rw [Step.outcome_inspect, Outlining.outcome_inspect, h]
  cases look ledger.context <;> rfl

end Step

namespace Conversion

open Schema Step Outline

variable {o : Options} {enclosing : Text}

theorem leafKeywords_eq (o : Options) (kind : Leaf) (qualified : Text) (attributes : Json.Entries) :
    (leafKeywords o kind qualified attributes).map (Keywords.annotate attributes) =
      (Flat.ofLeaf kind qualified attributes).map (Flat.write o) := by
  cases kind with
  | fixed => rfl
  | enum =>
    unfold leafKeywords enumKeywords Flat.ofLeaf
    dsimp only
    cases require attributes "symbols" [] with
    | error fault => rfl
    | ok symbols =>
      simp only [bind, Except.bind]
      cases Keywords.symbols? symbols <;> rfl

theorem written_leaf (kind : Leaf) (name : Text) (attributes : Json.Entries) :
    Writes o (leaf o kind name attributes enclosing) (Outlining.leaf kind name attributes enclosing)
      (Flat.write o) := by
  intro before ledger
  rw [outcome_leaf, Outlining.leaf, Outlining.outcome_bind, Outlining.outcome_ofExcept]
  cases Name.ofNamed name attributes enclosing with
  | error fault => rfl
  | ok qualified =>
    dsimp only
    rw [leafKeywords_eq]
    cases qualified.isEmpty <;> cases Flat.ofLeaf kind qualified attributes <;> rfl

/-- A reference needs the draft, which options always have. -/
theorem written_reference (qualified : Text) :
    Writes o (reference o.setup qualified) (pure (.reference qualified)) (Flat.write o) :=
  .pure rfl

theorem written_typeName (name : Text) :
    Writes o (typeName o.setup name enclosing) (Outlining.typeName name enclosing)
      (Flat.write o) := by
  unfold typeName Outlining.typeName
  cases Primitive.ofText? name with
  | some p => exact .pure rfl
  | none =>
    refine (Writes.inspect fun _ _ => rfl).bind fun qualified => ?_
    intro before ledger
    show outcome (if ledger.seen.contains qualified then _ else _) (ledger.written o before) =
      ((Outlining.outcome (if ledger.seen.contains qualified then _ else _) ledger).1.map _,
        (Outlining.outcome (if ledger.seen.contains qualified then _ else _) ledger).2.written o before)
    split
    · exact written_reference qualified before ledger
    · show outcome (match objectShape ((ledger.named.get? qualified).getD []) with
        | .leaf .. => _ | _ => _) _ = _
      split
      · exact written_leaf _ _ _ before ledger
      · exact written_reference qualified before ledger

/-- A node is converted by outlining it and writing the outline. -/
def WrittenNode (o : Options) (schema : Json) : Prop :=
  ∀ enclosing, Writes o (node o.setup schema enclosing)
    (Outlining.node o.flattenNullableUnions schema enclosing) (write o)

theorem written_branches {nodes : List Json} (ih : ∀ j ∈ nodes, WrittenNode o j) :
    Writes o (branches o.setup nodes enclosing)
      (Outlining.branches o.flattenNullableUnions nodes enclosing) (writeBranches o) := by
  induction nodes with
  | nil =>
    rw [branches_nil, Outlining.branches]
    exact .pure (by rw [writeBranches])
  | cons j js hjs =>
    rw [branches_cons, Outlining.branches]
    refine (ih j List.mem_cons_self enclosing).bind fun first => ?_
    exact (hjs fun i hi => ih i (List.mem_cons_of_mem _ hi)).map fun rest => by rw [writeBranches]

theorem written_fields {record : Text} {list : List Json}
    (ih : ∀ field ∈ list, ∀ attributes name type,
      fieldParts record field = .ok (attributes, name, type) → WrittenNode o type)
    (properties : Json.Entries) (required : List Json) :
    Writes o (fields o.setup record list properties required)
      (Outlining.fields o.flattenNullableUnions record list)
      (fun made => (writeFields o made properties, required ++ requiredNames made)) := by
  induction list generalizing properties required with
  | nil =>
    rw [fields_nil, Outlining.fields]
    exact .pure (by rw [writeFields, requiredNames, List.append_nil])
  | cons field more hmore =>
    rw [Outlining.fields]
    split
    · rename_i fault hp
      rw [fields_of_fault hp]
      exact .throw fault
    · rename_i attributes name type hp
      rw [fields_cons hp]
      refine (ih field List.mem_cons_self _ _ _ hp _).bind fun property => ?_
      refine Writes.bind_same fun nullable _ => ?_
      refine Writes.bind (w := fun key =>
        (properties.set key (.obj (Keywords.decorate attributes (write o property))),
          if nullable then required else required ++ [name])) (.ofExcept ?_) fun key => ?_
      · unfold addField Field.keyOf
        cases name.toKey? <;> rfl
      · refine (hmore (fun i hi => ih i (List.mem_cons_of_mem _ hi)) _ _).outlined fun made => ?_
        rw [writeFields, requiredNames]
        cases nullable with
        | true => rfl
        | false => simp

theorem written_union {members : List Json} (ih : ∀ j ∈ members, WrittenNode o j) :
    Writes o (union o.setup members enclosing)
      (Outlining.union o.flattenNullableUnions members enclosing) (write o) := by
  rw [Outlining.union]
  split
  · rename_i fault hu
    rw [union_of_fault hu]
    exact .throw fault
  · rename_i hu
    rw [union_of_choice hu]
    exact (written_branches ih).map fun made => by rw [write]
  · rename_i member hu
    have hmember := ih member (mem_of_unionForm hu) enclosing
    rw [union_of_nullable hu]
    show Writes o (if o.flattenNullableUnions then _ else _) _ _
    split
    · exact hmember
    · refine (Writes.inspect fun _ _ => rfl).bind fun kind => ?_
      dsimp only [id]
      cases primitiveOfKind? kind with
      | some p => exact .pure (by rw [write]; rfl)
      | none =>
        refine hmember.map fun branch => ?_
        rw [write, writeBranches, writeBranches, writeBranches]
        rfl

theorem written_record {schema : Json} {name : Text} {attributes : Json.Entries}
    (hs : shape schema = .record name attributes) (ih : ∀ j, Child j schema → WrittenNode o j) :
    Writes o (node o.setup schema enclosing)
      (do
        let qualified ← Outlining.ofExcept (Name.ofNamed name attributes enclosing)
        if (← get).seen.contains qualified then pure (.flat (.reference qualified))
        else
          modify (Ledger.enter qualified attributes)
          let list ← Outlining.ofExcept (fieldList qualified attributes)
          let made ← Outlining.fields o.flattenNullableUnions qualified list.1
          modify (Ledger.finish qualified (.record qualified attributes made))
          pure (.record qualified attributes made)) (write o) := by
  rw [node_of_record hs]
  refine Writes.bind_same fun qualified _ => ?_
  intro before ledger
  show outcome (if ledger.seen.contains qualified then _ else _) (ledger.written o before) =
    ((Outlining.outcome (if ledger.seen.contains qualified then _ else _) ledger).1.map _,
      (Outlining.outcome (if ledger.seen.contains qualified then _ else _) ledger).2.written o before)
  split
  · exact Writes.pure (by rw [write]; rfl) before ledger
  · refine Writes.bind (.modify fun _ _ => rfl) (fun _ => ?_) before ledger
    refine Writes.bind_same fun list hl => ?_
    have hfields : Writes o (fields o.setup qualified list.1 [] [])
        (Outlining.fields o.flattenNullableUnions qualified list.1)
        (fun made => (writeFields o made [], requiredNames made)) :=
      written_fields (fun field hf _ _ type hp => ih type (child_of_field hs (fieldList_ok hl) hf hp))
        [] []
    refine hfields.bind fun made => ?_
    have hwrite : recordKeywords o qualified attributes (writeFields o made []) (requiredNames made)
        = write o (.record qualified attributes made) := by
      rw [write]
    dsimp only
    rw [show o.setup.options = o from rfl, hwrite]
    exact Writes.bind (.modify fun _ _ => (Ledger.written_finish _ _ _ _ _).symm) fun _ => .pure rfl

/-- **Every node is converted by outlining it and writing the outline**, from any context that some
finished records are written into. -/
theorem written_node (o : Options) (schema : Json) : WrittenNode o schema := by
  induction schema using Schema.induction with
  | step schema ih =>
    intro enclosing
    rw [Outlining.node]
    split <;> rename_i hs
    · rw [node_of_malformed hs]
      exact .throw _
    · rw [node_of_union hs]
      exact written_union fun j hj => ih j (.member hs hj)
    · rw [node_of_name hs]
      exact (written_typeName _).outlined fun flat => by rw [write]
    · rw [node_of_wrapper hs]
      exact ih _ (.inner hs) enclosing
    · rw [node_of_primitive hs]
      exact .pure (by rw [write]; rfl)
    · rw [node_of_leaf hs]
      exact (written_leaf _ _ _).outlined fun flat => by rw [write]
    · rw [node_of_array hs]
      exact (ih _ (.items hs) enclosing).map fun items => by rw [write]; rfl
    · rw [node_of_map hs]
      exact (ih _ (.values hs) enclosing).map fun values => by rw [write]; rfl
    · rw [node_of_reference hs]
      exact (written_typeName _).map fun target => by rw [write]; rfl
    · exact written_record hs ih
end Conversion

/-! ### Whole documents -/

namespace Outline

/-- The outline of a whole schema, with the ledger that it leaves. -/
def ofSchema (flatten : Bool) (schema : Json) : Except Fault Outline × Ledger :=
  (Outlining.node flatten schema []).outcome .empty

/-- The document of an outline. -/
def document (o : Options) (outline : Outline) (ledger : Ledger) : Json :=
  .obj ((Document.header o.draft (ledger.written o [])).merge (outline.write o))

end Outline

namespace Document

/-- The conversion of a whole schema writes its outline. -/
theorem run_eq_written (o : Options) (schema : Json) :
    run o.setup schema =
      ((Outline.ofSchema o.flattenNullableUnions schema).1.map (Outline.write o),
        (Outline.ofSchema o.flattenNullableUnions schema).2.written o []) :=
  Conversion.written_node o schema [] [] .empty

/-- **The document of a schema is written from its outline.** -/
theorem ofSchema_eq_written (o : Options) (schema : Json) :
    ofSchema o.setup schema =
      (Outline.ofSchema o.flattenNullableUnions schema).1.map fun outline =>
        outline.document o (Outline.ofSchema o.flattenNullableUnions schema).2 := by
  rw [ofSchema_eq, run_eq_written]
  cases (Outline.ofSchema o.flattenNullableUnions schema).1 <;> rfl

end Document

end AvroJsonSchema
