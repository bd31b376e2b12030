import AvroJsonSchema.Proofs.Walk

/-!
# What holds of every part of a conversion

The conversion of a node is put together from values that may be faults, from looks at the context, and
from the few parts that write to it: an enum or a fixed type that is met, also by its name, and a record
that is entered and left.  A property that is kept when parts are put together holds of every node if it
holds of these.

* **`Step.Compositional`**: a property is kept when parts are put together.
* **`Step.Compositional.branches`**, **`Step.Compositional.union`**, **`Step.Compositional.fields`**: it
  goes from nodes to lists of them, to unions and to the fields of a record.
* **`Step.Compositional.node`**: it goes from the parts that write to every node.
-/

namespace AvroJsonSchema

namespace Step

open Schema Conversion

/-- A property of parts of a conversion holds of values and faults and of looks at the context, and of
two parts one after the other if it holds of both. -/
structure Compositional (P : {α : Type} → Step α → Prop) : Prop where
  ofExcept : ∀ {α : Type} (x : Except Fault α), P (ofExcept x)
  inspect : ∀ {α : Type} (look : Context → Except Fault α), P (inspect look)
  bind : ∀ {α β : Type} {x : Step α} {f : α → Step β}, P x → (∀ a, P (f a)) → P (x >>= f)

namespace Compositional

variable {P : {α : Type} → Step α → Prop} {α β : Type}

theorem pure (hP : Compositional @P) (a : α) : P (pure a : Step α) :=
  hP.ofExcept (.ok a)

theorem throw (hP : Compositional @P) (fault : Fault) : P (throw fault : Step α) :=
  hP.ofExcept (.error fault)

theorem map (hP : Compositional @P) (g : α → β) {x : Step α} (hx : P x) :
    P (x >>= Pure.pure ∘ g) :=
  hP.bind hx fun a => hP.pure (g a)

variable {setup : Setup} {enclosing : Text}

theorem branches (hP : Compositional @P) {nodes : List Json}
    (h : ∀ j ∈ nodes, P (node setup j enclosing)) : P (branches setup nodes enclosing) := by
  induction nodes with
  | nil =>
    rw [branches_nil]
    exact hP.pure []
  | cons j js ih =>
    rw [branches_cons]
    have hrest := ih fun i hi => h i (List.mem_cons_of_mem _ hi)
    exact hP.bind (h j List.mem_cons_self) fun _ => hP.map _ hrest

theorem union (hP : Compositional @P) {members : List Json}
    (h : ∀ j ∈ members, P (node setup j enclosing)) : P (union setup members enclosing) := by
  cases hu : unionForm members with
  | fault fault =>
    rw [union_of_fault hu]
    exact hP.throw fault
  | choice =>
    rw [union_of_choice hu]
    exact hP.map _ (hP.branches h)
  | nullable member =>
    have hm := h member (mem_of_unionForm hu)
    rw [union_of_nullable hu]
    split
    · exact hm
    · refine hP.bind (hP.inspect _) fun kind => ?_
      split
      · exact hP.pure _
      · exact hP.bind hm fun _ => hP.pure _

theorem fields (hP : Compositional @P) {record : Text} {list : List Json}
    (h : ∀ field ∈ list, ∀ attributes name type,
      fieldParts record field = .ok (attributes, name, type) →
      P (node setup type (Name.namespaceOf record)))
    (properties : Json.Entries) (required : List Json) :
    P (fields setup record list properties required) := by
  induction list generalizing properties required with
  | nil =>
    rw [fields_nil]
    exact hP.pure _
  | cons field more ih =>
    cases hp : fieldParts record field with
    | error fault =>
      rw [fields_of_fault hp]
      exact hP.throw fault
    | ok parts =>
      obtain ⟨attributes, name, type⟩ := parts
      rw [fields_cons hp]
      refine hP.bind (h field List.mem_cons_self _ _ _ hp) fun property => ?_
      refine hP.bind (hP.ofExcept _) fun nullable => ?_
      refine hP.bind (hP.ofExcept _) fun added => ?_
      exact ih (fun f hf => h f (List.mem_cons_of_mem _ hf)) _ _

/-- **A property that is kept when parts are put together holds of every node** if it holds of type names,
of enums and fixed types, and of records as soon as it holds of the nodes below them.  Only nodes of some
kind may be looked at, if all nodes below such a node are of this kind too. -/
theorem node (hP : Compositional @P) {Q : Json → Prop}
    (hbelow : ∀ schema j, Q schema → Child j schema → Q j)
    (hname : ∀ name enclosing, P (typeName setup name enclosing))
    (hleaf : ∀ kind name attributes enclosing, Q (.obj attributes) →
      objectShape attributes = .leaf kind name attributes →
      P (leaf setup.options kind name attributes enclosing))
    (hrecord : ∀ schema name attributes, Q schema → shape schema = .record name attributes →
      (∀ j, Child j schema → ∀ enclosing, P (node setup j enclosing)) →
      ∀ enclosing, P (node setup schema enclosing))
    (schema : Json) (h : Q schema) (enclosing : Text) : P (node setup schema enclosing) := by
  induction schema using Schema.induction generalizing enclosing with
  | step schema ih =>
    have hchild : ∀ j, Child j schema → ∀ enclosing, P (Conversion.node setup j enclosing) :=
      fun j hj => ih j hj (hbelow schema j h hj)
    cases hs : shape schema with
    | malformed fault =>
      rw [node_of_malformed hs]
      exact hP.throw _
    | union members =>
      rw [node_of_union hs]
      exact hP.union fun j hj => hchild j (.member hs hj) enclosing
    | name name =>
      rw [node_of_name hs]
      exact hname name enclosing
    | wrapper inner =>
      rw [node_of_wrapper hs]
      exact hchild inner (.inner hs) enclosing
    | primitive p attributes =>
      rw [node_of_primitive hs]
      exact hP.pure _
    | leaf kind name attributes =>
      obtain ⟨es, rfl, rfl⟩ := fits_of_shape hs (by simp) (by simp) (by simp)
      rw [node_of_leaf hs]
      exact hleaf kind name attributes enclosing h hs
    | array items attributes =>
      rw [node_of_array hs]
      exact hP.map _ (hchild items (.items hs) enclosing)
    | map values attributes =>
      rw [node_of_map hs]
      exact hP.map _ (hchild values (.values hs) enclosing)
    | reference name attributes =>
      rw [node_of_reference hs]
      exact hP.map _ (hname name enclosing)
    | record name attributes => exact hrecord schema name attributes h hs hchild enclosing

end Compositional

end Step

end AvroJsonSchema
