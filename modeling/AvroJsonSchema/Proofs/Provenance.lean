import AvroJsonSchema.Proofs.Kinds
import AvroJsonSchema.Proofs.Outlines

/-!
# What outlines are made from

The attributes that an outline carries are those of objects of the schema, and what it carries beside
them has been checked on the way: symbols are texts, the scalar of a nullable union is not null, and
the fields of a record are those that its attributes list, in their order.

* **`Outline.MadeFrom`**: an outline is made from objects of a schema.
* **`Ledger.Holds`**: so are the outlines of a ledger, and its named types stand in the schema.
* **`Outlining.Keeps`**: a part of outlining keeps an invariant of the ledger, and what it yields has a
  property.  **`Outlining.Yields`**: it keeps the ledger so.
* **`Outlining.madeFrom_node`**, **`Outline.madeFrom_ofSchema`**: every outline is made from its
  schema.
-/

namespace AvroJsonSchema

open Schema Conversion

namespace Outline

/-- What is written of a bare name or of an object of a schema. -/
inductive Flat.MadeFrom (schema : Json) : Flat → Prop
  | name (p : Primitive) : MadeFrom schema (.scalar (.primitive p) [])
  | scalar (s : Scalar) {attributes : Json.Entries} :
      Below (.obj attributes) schema → MadeFrom schema (.scalar s attributes)
  | enum {symbols : List Json} {attributes : Json.Entries} :
      Below (.obj attributes) schema → (∀ j ∈ symbols, ∃ t, j = .str t) →
      MadeFrom schema (.enum symbols attributes)
  | reference (qualified : Text) : MadeFrom schema (.reference qualified)

/-- A field is written with its attributes, its name and the key that the name is used as. -/
structure Field.Reads (field : Field) : Prop where
  name : field.attributes.attr? "name" = some field.name
  key : field.name.toKey? = some field.key

/-- An outline is made from objects of a schema. -/
inductive MadeFrom (schema : Json) : Outline → Prop
  | flat {f : Flat} : f.MadeFrom schema → MadeFrom schema (.flat f)
  | annotated {attributes : Json.Entries} {target : Flat} :
      Below (.obj attributes) schema → target.MadeFrom schema →
      MadeFrom schema (.annotated attributes target)
  | nullable (member : Json) {p : Primitive} : p ≠ .null → MadeFrom schema (.nullable member p)
  | array {attributes : Json.Entries} {items : Outline} :
      Below (.obj attributes) schema → MadeFrom schema items →
      MadeFrom schema (.array attributes items)
  | map {attributes : Json.Entries} {values : Outline} :
      Below (.obj attributes) schema → MadeFrom schema values →
      MadeFrom schema (.map attributes values)
  | record (qualified : Text) {attributes : Json.Entries} {fields : List (Field × Outline)} :
      Below (.obj attributes) schema → IsRecord attributes →
      attributes.attr? "fields" = some (.arr (fields.map fun field => .obj field.1.attributes)) →
      (∀ field ∈ fields, field.1.Reads) → (∀ field ∈ fields, MadeFrom schema field.2) →
      MadeFrom schema (.record qualified attributes fields)
  | choice {branches : List Outline} :
      (branches = [] → Below (.arr []) schema) → (∀ branch ∈ branches, MadeFrom schema branch) →
      MadeFrom schema (.choice branches)

theorem madeFrom_null (schema : Json) : null.MadeFrom schema :=
  .flat (.name .null)

/-- The symbols of an enum are a list of texts. -/
theorem symbols?_eq_some {symbols : Json} {items : List Json}
    (h : Keywords.symbols? symbols = some items) :
    symbols = .arr items ∧ ∀ j ∈ items, ∃ t, j = .str t := by
  unfold Keywords.symbols? at h
  split at h
  · split at h
    · rename_i hall
      cases h
      refine ⟨rfl, fun j hj => ?_⟩
      have hj := List.all_eq_true.1 hall j hj
      cases j with
      | str t => exact ⟨t, rfl⟩
      | _ => cases hj
    · cases h
  · cases h

/-- A leaf is outlined with its attributes, and an enum with the symbols that they list. -/
theorem Flat.ofLeaf_ok {kind : Leaf} {qualified : Text} {attributes : Json.Entries} {flat : Flat}
    (h : Flat.ofLeaf kind qualified attributes = .ok flat) :
    flat = .scalar .fixed attributes ∨ ∃ items, attributes.attr? "symbols" = some (.arr items)
      ∧ (∀ j ∈ items, ∃ t, j = .str t) ∧ flat = .enum items attributes := by
  cases kind with
  | fixed =>
    cases h
    exact .inl rfl
  | enum =>
    unfold Flat.ofLeaf at h
    dsimp only at h
    cases hs : require attributes "symbols" [] with
    | error fault =>
      rw [hs] at h
      cases h
    | ok symbols =>
      simp only [hs, bind, Except.bind] at h
      split at h
      · rename_i items hitems
        cases h
        obtain ⟨rfl, htexts⟩ := symbols?_eq_some hitems
        exact .inr ⟨items, require_ok hs, htexts, rfl⟩
      · cases h

theorem Flat.madeFrom_ofLeaf {schema : Json} {kind : Leaf} {qualified : Text}
    {attributes : Json.Entries} {flat : Flat} (hb : Below (.obj attributes) schema)
    (h : Flat.ofLeaf kind qualified attributes = .ok flat) : flat.MadeFrom schema := by
  rcases Flat.ofLeaf_ok h with rfl | ⟨items, -, htexts, rfl⟩
  · exact .scalar .fixed hb
  · exact .enum hb htexts

theorem Field.keyOf_ok {name : Json} {key : Json.Key} (h : Field.keyOf name = .ok key) :
    name.toKey? = some key := by
  unfold Field.keyOf at h
  split at h
  · cases h
  · rename_i hk
    cases h
    exact hk

end Outline

/-! ### Ledgers -/

/-- The named types of a ledger stand in a schema, and its outlines are made from it. -/
structure Ledger.Holds (schema : Json) (ledger : Ledger) : Prop where
  sound : ledger.context.Sound
  named : ∀ e ∈ ledger.named, Below (.obj e.2) schema
  finished : ∀ e ∈ ledger.finished, e.2.MadeFrom schema

namespace Ledger.Holds

variable {schema : Json} {ledger : Ledger} {q : Text} {attributes : Json.Entries}

theorem empty (schema : Json) : Ledger.empty.Holds schema where
  sound := Context.Sound.empty
  named := by simp [Ledger.empty]
  finished := by simp [Ledger.empty]

theorem named_set (h : ledger.Holds schema) (hb : Below (.obj attributes) schema) :
    ∀ e ∈ ledger.named.set q attributes, Below (.obj e.2) schema := by
  intro e he
  rcases Table.mem_set_sharp (Table.sharp_of_lawful q) he with he | rfl
  · exact h.named e he
  · exact hb

theorem addNamed (h : ledger.Holds schema) (hd : Defines attributes q)
    (hr : ¬IsRecord attributes) (hb : Below (.obj attributes) schema) :
    (ledger.addNamed q attributes).Holds schema where
  sound := h.sound.addNamed hd fun hc => absurd hc hr
  named := h.named_set hb
  finished := h.finished

theorem enter (h : ledger.Holds schema) (hd : Defines attributes q) (hq : q ∉ ledger.seen)
    (hb : Below (.obj attributes) schema) : (ledger.enter q attributes).Holds schema where
  sound := h.sound.enter hd hq
  named := h.named_set hb
  finished := h.finished

theorem finish (h : ledger.Holds schema) {outline : Outline} (ho : outline.MadeFrom schema) :
    (ledger.finish q outline).Holds schema where
  sound := h.sound
  named := h.named
  finished e he := by
    rcases List.mem_append.1 he with he | he
    · exact h.finished e he
    · rw [List.mem_singleton.1 he]
      exact ho

end Ledger.Holds

/-! ### Parts of outlining -/

namespace Outlining

open Outline

section Keeps

variable {α β : Type} {I : Ledger → Prop} {y : Outlining α} {Q : α → Prop}

/-- A part of outlining that ends well keeps an invariant of the ledger, and yields what has a
property. -/
def Keeps (I : Ledger → Prop) (y : Outlining α) (Q : α → Prop) : Prop :=
  ∀ ledger a ledger', I ledger → y.outcome ledger = (.ok a, ledger') → I ledger' ∧ Q a

theorem Keeps.pure {a : α} (h : Q a) : Keeps I (pure a) Q := by
  rintro ledger _ _ hl ⟨⟩
  exact ⟨hl, h⟩

theorem Keeps.throw (fault : Fault) : Keeps I (throw fault) Q := by
  rintro ledger _ _ hl ⟨⟩

theorem Keeps.bind (hy : Keeps I y Q) {g : α → Outlining β} {R : β → Prop}
    (hg : ∀ a, Q a → Keeps I (g a) R) : Keeps I (y >>= g) R := by
  intro ledger b ledger'' hl hb
  rw [outcome_bind] at hb
  rcases hr : y.outcome ledger with ⟨result, ledger'⟩
  rw [hr] at hb
  cases result with
  | error fault => cases hb
  | ok a =>
    obtain ⟨hl', ha⟩ := hy ledger a ledger' hl hr
    exact hg a ha ledger' b ledger'' hl' hb

theorem Keeps.map (hy : Keeps I y Q) {g : α → β} {R : β → Prop}
    (hg : ∀ a, Q a → R (g a)) : Keeps I (y >>= (Pure.pure ∘ g)) R :=
  hy.bind fun a ha => .pure (hg a ha)

theorem Keeps.ofExcept (e : Except Fault α) : Keeps I (ofExcept e) fun a => e = .ok a := by
  cases e with
  | error fault => exact .throw fault
  | ok a => exact .pure rfl

/-- What is looked up is looked up in a ledger that has the invariant. -/
theorem Keeps.inspect (look : Context → Except Fault α) :
    Keeps I (inspect look) fun a => ∃ ledger, I ledger ∧ look ledger.context = .ok a := by
  intro ledger a ledger' hl ha
  rw [outcome_inspect] at ha
  obtain ⟨hlook, rfl⟩ := Prod.mk.injEq _ _ _ _ ▸ ha
  exact ⟨hl, ledger, hl, hlook⟩

theorem Keeps.modify {f : Ledger → Ledger} (h : ∀ ledger : Ledger, I ledger → I (f ledger)) :
    Keeps I (modify f : Outlining Unit) fun _ => True := by
  rintro ledger a ledger' hl ⟨⟩
  exact ⟨h ledger hl, trivial⟩

theorem Keeps.get {g : Ledger → Outlining α}
    (h : ∀ ledger : Ledger, I ledger → Keeps I (g ledger) Q) : Keeps I (get >>= g) Q :=
  fun ledger a ledger' hl ha => h ledger hl ledger a ledger' hl ha

theorem keeps_leaf {kind : Leaf} {name enclosing : Text} {attributes : Json.Entries}
    {R : Flat → Prop}
    (hadd : ∀ qualified ledger, Name.ofNamed name attributes enclosing = .ok qualified → I ledger →
      I (ledger.addNamed qualified attributes))
    (hflat : ∀ qualified flat, Name.ofNamed name attributes enclosing = .ok qualified →
      Flat.ofLeaf kind qualified attributes = .ok flat → R flat) :
    Keeps I (leaf kind name attributes enclosing) R := by
  unfold leaf
  refine (Keeps.ofExcept _).bind fun qualified hq => ?_
  have hmodify : Keeps I (modify (Ledger.addNamed qualified attributes) : Outlining Unit) fun _ => True :=
    .modify fun ledger hl => hadd qualified ledger hq hl
  have hleaf : Keeps I (ofExcept (Flat.ofLeaf kind qualified attributes)) R := by
    intro ledger flat ledger' hl hf
    obtain ⟨hl', hok⟩ := Keeps.ofExcept _ ledger flat ledger' hl hf
    exact ⟨hl', hflat qualified flat hq hok⟩
  cases qualified.isEmpty with
  | true => exact hleaf
  | false => exact hmodify.bind fun _ _ => hleaf

/-- A type name is outlined as a primitive type, as a reference to what it means, or as the leaf that
it means. -/
theorem keeps_typeName {name enclosing : Text} {R : Flat → Prop}
    (hprimitive : ∀ p, R (.scalar (.primitive p) []))
    (hreference : ∀ qualified ledger, I ledger →
      ledger.context.resolve name enclosing = .ok qualified → R (.reference qualified))
    (hleaf : ∀ qualified ledger kind leafName attributes, I ledger →
      ledger.named.get? qualified = some attributes →
      objectShape attributes = .leaf kind leafName attributes →
      Keeps I (leaf kind leafName attributes (Name.namespaceOf qualified)) R) :
    Keeps I (typeName name enclosing) R := by
  unfold typeName
  cases Primitive.ofText? name with
  | some p => exact .pure (hprimitive p)
  | none =>
    refine (Keeps.inspect _).bind fun qualified hq => Keeps.get fun ledger hl => ?_
    obtain ⟨found, hfound, hresolve⟩ := hq
    have hreferred := hreference qualified found hfound hresolve
    split
    · exact .pure hreferred
    · split
      · rename_i kind leafName attributes hs
        cases ha : ledger.named.get? qualified with
        | none =>
          rw [ha] at hs
          cases hs
        | some named =>
          rw [ha, Option.getD_some] at hs
          obtain rfl := (objectShape_leaf hs).1
          exact hleaf qualified ledger kind leafName attributes hl ha hs
      · exact .pure hreferred

end Keeps

variable {α β : Type} {schema : Json} {y : Outlining α} {Q : α → Prop} {enclosing : Text}

/-- A part of outlining that ends well keeps what holds of the ledger, and yields what has a
property. -/
def Yields (schema : Json) (y : Outlining α) (Q : α → Prop) : Prop :=
  ∀ ledger a ledger', ledger.Holds schema → y.outcome ledger = (.ok a, ledger') →
    ledger'.Holds schema ∧ Q a

theorem Yields.pure {a : α} (h : Q a) : Yields schema (pure a) Q :=
  Keeps.pure h

theorem Yields.throw (fault : Fault) : Yields schema (throw fault) Q :=
  Keeps.throw fault

theorem Yields.bind (hy : Yields schema y Q) {g : α → Outlining β} {R : β → Prop}
    (hg : ∀ a, Q a → Yields schema (g a) R) : Yields schema (y >>= g) R :=
  Keeps.bind hy hg

theorem Yields.map (hy : Yields schema y Q) {g : α → β} {R : β → Prop}
    (hg : ∀ a, Q a → R (g a)) : Yields schema (y >>= (Pure.pure ∘ g)) R :=
  Keeps.map hy hg

theorem Yields.ofExcept (e : Except Fault α) : Yields schema (ofExcept e) fun a => e = .ok a :=
  Keeps.ofExcept e

/-- What is looked up is looked up in a sound context. -/
theorem Yields.inspect (look : Context → Except Fault α) :
    Yields schema (inspect look) fun a => ∃ c : Context, c.Sound ∧ look c = .ok a := by
  intro ledger a ledger' hl ha
  obtain ⟨hl', found, hfound, hlook⟩ := Keeps.inspect look ledger a ledger' hl ha
  exact ⟨hl', found.context, hfound.sound, hlook⟩

theorem Yields.modify {f : Ledger → Ledger}
    (h : ∀ ledger : Ledger, ledger.Holds schema → (f ledger).Holds schema) :
    Yields schema (modify f : Outlining Unit) fun _ => True :=
  Keeps.modify h

theorem madeFrom_leaf {kind : Leaf} {name : Text} {attributes : Json.Entries}
    (hs : objectShape attributes = .leaf kind name attributes)
    (hb : Below (.obj attributes) schema) :
    Yields schema (leaf kind name attributes enclosing) (Flat.MadeFrom schema) := by
  obtain ⟨-, hn, ht⟩ := objectShape_leaf hs
  refine keeps_leaf (fun qualified ledger hq hl => ?_) fun qualified flat _ hf =>
    Flat.madeFrom_ofLeaf hb hf
  exact hl.addNamed (defines_of_leaf hn ht hq) (not_isRecord_of_leaf ht) hb

theorem madeFrom_typeName (name : Text) :
    Yields schema (typeName name enclosing) (Flat.MadeFrom schema) := by
  refine keeps_typeName .name (fun qualified _ _ _ => .reference qualified) ?_
  intro qualified ledger kind leafName attributes hl ha hs
  exact madeFrom_leaf hs
    (hl.named _ (Table.mem_of_get?_eq_some (Table.sharp_of_lawful qualified) ha))

/-- A node of a schema is outlined by what is made from the schema. -/
def MadeFromNode (flatten : Bool) (schema node : Json) : Prop :=
  Below node schema →
    ∀ enclosing, Yields schema (Outlining.node flatten node enclosing) (MadeFrom schema)

variable {flatten : Bool}

theorem madeFrom_branches {nodes : List Json}
    (ih : ∀ j ∈ nodes, Below j schema ∧ MadeFromNode flatten schema j) :
    Yields schema (branches flatten nodes enclosing)
      fun made => (made = [] → nodes = []) ∧ ∀ branch ∈ made, branch.MadeFrom schema := by
  induction nodes with
  | nil =>
    rw [branches]
    exact .pure ⟨fun _ => rfl, by simp⟩
  | cons j js hjs =>
    obtain ⟨⟨hb, hj⟩, hrest⟩ := List.forall_mem_cons.1 ih
    rw [branches]
    refine (hj hb enclosing).bind fun first hfirst => ?_
    exact (hjs hrest).map fun rest h => ⟨by simp, List.forall_mem_cons.2 ⟨hfirst, h.2⟩⟩

theorem madeFrom_fields {record : Text} {list : List Json}
    (ih : ∀ field ∈ list, ∀ attributes name type,
      fieldParts record field = .ok (attributes, name, type) →
      Below type schema ∧ MadeFromNode flatten schema type) :
    Yields schema (fields flatten record list) fun made =>
      list = made.map (fun field => .obj field.1.attributes)
        ∧ (∀ field ∈ made, field.1.Reads) ∧ ∀ field ∈ made, field.2.MadeFrom schema := by
  induction list with
  | nil =>
    rw [fields]
    exact .pure ⟨rfl, by simp, by simp⟩
  | cons field more hmore =>
    rw [fields]
    split
    · exact .throw _
    · rename_i attributes name type hp
      obtain ⟨hfield, hn, -⟩ := fieldParts_ok hp
      obtain ⟨hb, htype⟩ := ih field List.mem_cons_self _ _ _ hp
      refine (htype hb _).bind fun property hproperty => ?_
      refine (Yields.ofExcept _).bind fun nullable _ => ?_
      refine (Yields.ofExcept _).bind fun key hkey => ?_
      refine (hmore fun i hi => ih i (List.mem_cons_of_mem _ hi)).map fun rest hrest => ?_
      refine ⟨?_, List.forall_mem_cons.2 ⟨⟨hn, Field.keyOf_ok hkey⟩, hrest.2.1⟩,
        List.forall_mem_cons.2 ⟨hproperty, hrest.2.2⟩⟩
      rw [List.map_cons, ← hrest.1, hfield]

theorem madeFrom_union {members : List Json} (hb : Below (.arr members) schema)
    (ih : ∀ j ∈ members, MadeFromNode flatten schema j) :
    Yields schema (union flatten members enclosing) (MadeFrom schema) := by
  have hbelow : ∀ j ∈ members, Below j schema := fun j hj => hb.trans (Child.member rfl hj).below
  rw [union]
  split
  · exact .throw _
  · refine (madeFrom_branches fun j hj => ⟨hbelow j hj, ih j hj⟩).map fun made hmade => ?_
    exact .choice (fun hnil => hmade.1 hnil ▸ hb) hmade.2
  · rename_i member hu
    have hm := mem_of_unionForm hu
    have hmember := ih member hm (hbelow member hm) enclosing
    split
    · exact hmember
    · refine (Yields.inspect _).bind fun kind hkind => ?_
      obtain ⟨c, hc, hr⟩ := hkind
      split
      · rename_i p hp
        refine .pure (.nullable member ?_)
        rintro rfl
        obtain ⟨t, ht, hpt⟩ := kind_of_resolveKind hc hr hp
        refine kind_ne_null_of_nonNull (nonNull_of_unionForm hu) member (by simp) ?_
        rw [ht, ← Primitive.text_of_ofText? hpt]
        rfl
      · refine hmember.map fun branch hbranch => .choice (by simp) ?_
        simp [madeFrom_null, hbranch]

theorem madeFrom_record {node : Json} {name : Text} {attributes : Json.Entries}
    (hs : shape node = .record name attributes) (hb : Below node schema)
    (ih : ∀ j, Child j node → MadeFromNode flatten schema j) :
    Yields schema
      (do
        let qualified ← ofExcept (Name.ofNamed name attributes enclosing)
        if (← get).seen.contains qualified then pure (.flat (.reference qualified))
        else
          modify (Ledger.enter qualified attributes)
          let list ← ofExcept (fieldList qualified attributes)
          let made ← fields flatten qualified list.1
          modify (Ledger.finish qualified (.record qualified attributes made))
          pure (.record qualified attributes made)) (MadeFrom schema) := by
  obtain ⟨rfl, -, hrecord⟩ := isRecord_of_shape hs
  refine (Yields.ofExcept _).bind fun qualified hq => ?_
  have hbody : Yields schema
      (do
        let list ← ofExcept (fieldList qualified attributes)
        let made ← fields flatten qualified list.1
        modify (Ledger.finish qualified (.record qualified attributes made))
        pure (.record qualified attributes made)) (MadeFrom schema) := by
    refine (Yields.ofExcept _).bind fun list hl => ?_
    have hlist := fieldList_ok hl
    have hfields : Yields schema (fields flatten qualified list.1) _ := madeFrom_fields
      fun field hf _ _ type hp =>
        have hchild := child_of_field hs hlist hf hp
        ⟨hb.trans hchild.below, ih type hchild⟩
    refine hfields.bind fun made hmade => ?_
    have hmadeFrom : MadeFrom schema (.record qualified attributes made) :=
      .record qualified hb hrecord (hmade.1 ▸ hlist) hmade.2.1 hmade.2.2
    exact (Yields.modify fun ledger hl => hl.finish hmadeFrom).bind fun _ _ => .pure hmadeFrom
  intro ledger outline ledger' hl ho
  replace ho : outcome (if ledger.seen.contains qualified then _ else _) ledger = _ := ho
  split at ho
  · exact Yields.pure (.flat (.reference qualified)) ledger outline ledger' hl ho
  · rename_i hseen
    have hnew : qualified ∉ ledger.seen := by simpa using hseen
    exact hbody _ outline ledger' (hl.enter (defines_of_record hs hq) hnew hb) ho

/-- **Whatever is outlined below a schema is made from the schema.** -/
theorem madeFrom_node (flatten : Bool) (schema node : Json) : MadeFromNode flatten schema node := by
  induction node using Schema.induction with
  | step node ih =>
    intro hb enclosing
    have hchild : ∀ j, Child j node → Below j schema := fun j hj => hb.trans hj.below
    rw [Outlining.node]
    split <;> rename_i hs
    · exact .throw _
    · obtain rfl := eq_arr_of_shape hs
      exact madeFrom_union hb fun j hj => ih j (.member hs hj)
    · exact (madeFrom_typeName _).map fun _ h => .flat h
    · exact ih _ (.inner hs) (hchild _ (.inner hs)) enclosing
    · obtain ⟨_, rfl, rfl⟩ := fits_of_shape hs (by simp) (by simp) (by simp)
      exact .pure (.flat (.scalar _ hb))
    · obtain ⟨_, rfl, rfl⟩ := fits_of_shape hs (by simp) (by simp) (by simp)
      exact (madeFrom_leaf hs hb).map fun _ h => .flat h
    · obtain ⟨_, hobj, heq, -⟩ := fits_of_shape hs (by simp) (by simp) (by simp)
      have hitems := ih _ (.items hs) (hchild _ (.items hs)) enclosing
      exact hitems.map fun _ h => .array (heq ▸ hobj ▸ hb) h
    · obtain ⟨_, hobj, heq, -⟩ := fits_of_shape hs (by simp) (by simp) (by simp)
      have hvalues := ih _ (.values hs) (hchild _ (.values hs)) enclosing
      exact hvalues.map fun _ h => .map (heq ▸ hobj ▸ hb) h
    · obtain ⟨_, rfl, rfl⟩ := fits_of_shape hs (by simp) (by simp) (by simp)
      exact (madeFrom_typeName _).map fun _ h => .annotated hb h
    · exact madeFrom_record hs hb ih

end Outlining

/-- The outline of a whole schema and those of its finished records are made from it. -/
theorem Outline.madeFrom_ofSchema {flatten : Bool} {schema : Json} {outline : Outline}
    (h : (Outline.ofSchema flatten schema).1 = .ok outline) :
    outline.MadeFrom schema
      ∧ ∀ e ∈ (Outline.ofSchema flatten schema).2.finished, e.2.MadeFrom schema := by
  have hnode := Outlining.madeFrom_node flatten schema schema (.self schema) [] .empty outline
    (Outline.ofSchema flatten schema).2 (.empty schema) (Prod.ext h rfl)
  exact ⟨hnode.2, hnode.1.finished⟩

end AvroJsonSchema
