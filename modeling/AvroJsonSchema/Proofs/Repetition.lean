import AvroJsonSchema.Proofs.Kinds
import AvroJsonSchema.Proofs.StoredTypes

/-!
# Schemas converted again

A schema that has been converted once may be converted again in the context that this has left.  Every
record in it has been entered by then, so that nothing below a record is looked at again; every enum and
every fixed type is stored under the full name that it has once more; and a name that meant something
before means something still, though it may be another type, if one has been defined under the same
short name in the namespace around it.  Such a type is a record that has been entered or a type that is
stored with its keywords, and neither fails.

* **`Context.Settled`**: all types that are stored have keywords, as after calls that end well.
* **`Context.Keeps`**: nothing but what is stored under a name may differ.
* **`Step.Repeats`**: what ends well once ends well again later on, and changes nothing else.
* **`Conversion.repeats_node`**: every node does.
* **`Session.converted_again`**: the second conversion of a schema defines nothing new.
-/

namespace AvroJsonSchema

open Schema

namespace Context

open Conversion

/-- A sound context in which every enum and every fixed type that is stored has keywords. -/
structure Settled (options : Options) (c : Context) : Prop where
  sound : c.Sound
  leaves : ∀ q attributes kind name, (q, attributes) ∈ c.named →
    objectShape attributes = .leaf kind name attributes →
    ∃ keywords, leafKeywords options kind q attributes = .ok keywords

/-- What has been met in a context has been met in another one. -/
structure MetIn (c d : Context) : Prop where
  seen : ∀ q ∈ c.seen, q ∈ d.seen
  named : ∀ q ∈ c.named.keys, q ∈ d.named.keys

/-- A settled context comes out of another one, and nothing but what is stored under the names differs. -/
structure Keeps (options : Options) (c d : Context) : Prop where
  settled : d.Settled options
  seen : d.seen = c.seen
  definitions : d.definitions = c.definitions
  named : d.named.keys = c.named.keys

variable {options : Options} {c c' d : Context} {q : Text} {attributes : Json.Entries}

theorem Settled.empty : Settled options Context.empty :=
  ⟨.empty, by simp [Context.empty]⟩

/-- An enum or a fixed type with keywords may be met. -/
theorem Settled.addNamed (h : c.Settled options) {kind : Leaf} {name : Text}
    {keywords : Json.Entries} (hd : Defines attributes q)
    (hs : objectShape attributes = .leaf kind name attributes)
    (hk : leafKeywords options kind q attributes = .ok keywords) :
    (c.addNamed q attributes).Settled options where
  sound := h.sound.addNamed hd fun hr => absurd hr (not_isRecord_of_leaf (objectShape_leaf hs).2.2)
  leaves p es k n hp hes := by
    rcases Table.mem_set_sharp (Table.sharp_of_lawful q) hp with hp | hp
    · exact h.leaves p es k n hp hes
    · cases hp
      rw [hs] at hes
      cases hes
      exact ⟨keywords, hk⟩

/-- A record that has not been entered may be. -/
theorem Settled.enter (h : c.Settled options) (hd : Defines attributes q) (hr : IsRecord attributes)
    (hq : q ∉ c.seen) : (c.enter q attributes).Settled options where
  sound := h.sound.enter hd hq
  leaves p es k n hp hes := by
    rcases Table.mem_set_sharp (Table.sharp_of_lawful q) hp with hp | hp
    · exact h.leaves p es k n hp hes
    · cases hp
      exact absurd hr (not_isRecord_of_leaf (objectShape_leaf hes).2.2)

theorem Settled.keeps (h : c.Settled options) : c.Keeps options c :=
  ⟨h, rfl, rfl, rfl⟩

theorem Keeps.trans (h : c.Keeps options c') (h' : c'.Keeps options d) : c.Keeps options d :=
  ⟨h'.settled, h'.seen.trans h.seen, h'.definitions.trans h.definitions, h'.named.trans h.named⟩

theorem MetIn.of_keeps (h : c.MetIn c') (h' : c'.Keeps options d) : c.MetIn d where
  seen := h'.seen ▸ h.seen
  named := h'.named ▸ h.named

theorem MetIn.of_evolves (h : c'.MetIn d) (he : c.Evolves c' []) : c.MetIn d where
  seen q hq := h.seen q (he.seen_subset hq)
  named q hq := by
    obtain ⟨more, hm⟩ := he.named
    exact h.named q (hm ▸ List.mem_append_left more hq)

/-- A name that means something in a context means something, if not the same, where all that has been
met has been met. -/
theorem MetIn.resolve (h : c.MetIn d) {name enclosing : Text}
    (hr : c.resolve name enclosing = .ok q) : ∃ p, d.resolve name enclosing = .ok p := by
  have hfound := List.find?_some (resolve_eq_ok_iff.1 hr)
  have hhas : d.named.has q = true :=
    (Table.has_iff_mem_keys (Table.sharp_of_lawful q)).2
      (h.named q ((Table.has_iff_mem_keys (Table.sharp_of_lawful q)).1 hfound))
  have hsome : ((candidates name enclosing).find? (d.named.has ·)).isSome = true :=
    List.find?_isSome.2 ⟨q, List.mem_of_find?_eq_some (resolve_eq_ok_iff.1 hr), hhas⟩
  obtain ⟨p, hp⟩ := Option.isSome_iff_exists.1 hsome
  exact ⟨p, resolve_eq_ok_iff.2 hp⟩

end Context

namespace Step

variable {α β γ δ : Type} {options : Options}

/-! ### Parts that end well leave a settled context -/

/-- A part of a conversion that ends well in a settled context leaves a settled one. -/
def Settling (options : Options) (x : Step α) : Prop :=
  ∀ c c' a, c.Settled options → outcome x c = (.ok a, c') → c'.Settled options

theorem Settling.of_still {x : Step α} (h : Still x) : Settling options x := by
  intro c c' a hc hok
  have hstill : c' = c := by
    have hafter := h c hc.sound
    rwa [hok] at hafter
  exact hstill ▸ hc

theorem Settling.bind {x : Step α} {f : α → Step β} (hx : Settling options x)
    (hf : ∀ a, Settling options (f a)) : Settling options (x >>= f) := by
  intro c c'' b hc hok
  obtain ⟨a, c', hfirst, hrest⟩ := bind_ok hok
  exact hf a c' c'' b (hx c c' a hc hfirst) hrest

theorem Settling.compositional (options : Options) : Compositional (Settling options) :=
  ⟨fun x => .of_still (.ofExcept x), fun look => .of_still (.inspect look), .bind⟩

/-! ### Parts that end well again -/

/-- Where the first part has ended well, the second one ends well later on, and keeps the context. -/
def Repeats (options : Options) (x : Step α) (y : Step β) : Prop :=
  ∀ c c' a d, c.Sound → outcome x c = (.ok a, c') → c'.MetIn d → d.Settled options →
    ∃ b d', outcome y d = (.ok b, d') ∧ d.Keeps options d'

theorem Repeats.pure (a : α) (b : β) : Repeats options (pure a : Step α) (pure b : Step β) :=
  fun _ _ _ d _ _ _ hd => ⟨b, d, rfl, hd.keeps⟩

theorem Repeats.throw (fault : Fault) (y : Step β) :
    Repeats options (throw fault : Step α) y := by
  intro c c' a d _ hok
  cases hok

theorem Repeats.bind {x : Step α} {y : Step β} {f : α → Step γ} {g : β → Step δ}
    (hx : Evolving x) (hf : ∀ a, Evolving (f a)) (hxy : Repeats options x y)
    (hfg : ∀ a b, Repeats options (f a) (g b)) : Repeats options (x >>= f) (y >>= g) := by
  intro c c'' a d hc hok hd hsettled
  obtain ⟨a₁, c₁, hfirst, hrest⟩ := bind_ok hok
  have hsound := ((hx.of_ok hc hfirst).sound)
  have hevolves := (hf a₁).of_ok hsound hrest
  obtain ⟨b₁, d₁, hagain, hkeeps⟩ := hxy c c₁ a₁ d hc hfirst (hd.of_evolves hevolves) hsettled
  obtain ⟨b, d', hlater, hkeeps'⟩ :=
    hfg a₁ b₁ c₁ c'' a d₁ hsound hrest (hd.of_keeps hkeeps) hkeeps.settled
  exact ⟨b, d', (bind_of_ok hagain g).trans hlater, hkeeps.trans hkeeps'⟩

theorem Repeats.map {x : Step α} {y : Step β} (f : α → γ) (g : β → δ) (hx : Evolving x)
    (hxy : Repeats options x y) :
    Repeats options (x >>= Pure.pure ∘ f) (y >>= Pure.pure ∘ g) :=
  .bind hx (fun a => .pure (f a)) hxy fun a b => .pure (f a) (g b)

end Step

namespace Conversion

open Step Context

variable {options : Options} {enclosing : Text} {schema : Json}

/-! ### Settled contexts -/

/-- An enum or a fixed type that is converted is stored with its keywords. -/
theorem settling_leaf {kind : Leaf} {name : Text} {attributes : Json.Entries}
    (hs : objectShape attributes = .leaf kind name attributes) :
    Settling options (leaf options kind name attributes enclosing) := by
  intro c c' es hc hok
  obtain ⟨qualified, keywords, hq, hk, -, rfl⟩ := leaf_ok hok
  obtain ⟨-, hn, ht⟩ := objectShape_leaf hs
  split
  · exact hc
  · exact hc.addNamed (defines_of_leaf hn ht hq) hs hk

theorem settling_typeName (name : Text) : Settling options (typeName options name enclosing) :=
  .of_still (still_typeName name enclosing)

theorem settling_record {name : Text} {attributes : Json.Entries}
    (hs : shape schema = .record name attributes)
    (h : ∀ j, Child j schema → ∀ enclosing, Settling options (node options j enclosing)) :
    Settling options (node options schema enclosing) := by
  intro c c' es hc hok
  have hevolves := (evolving_node schema enclosing).of_ok hc.sound hok
  obtain ⟨q, hq, ⟨-, hreference⟩ | ⟨hnew, list, made, c₁, hl, hf, -, rfl⟩⟩ := record_ok hs hok
  · obtain ⟨-, rfl⟩ := reference_ok hreference
    exact hc
  · have hentered := hc.enter (defines_of_record hs hq) (isRecord_of_shape hs).2.2 hnew
    have hfields : Settling options (fields options q list.1 [] []) :=
      (Settling.compositional options).fields (fun _ hfield _ _ type hp =>
        h type (child_of_field hs (fieldList_ok hl) hfield hp) _) [] []
    exact ⟨hevolves.sound, (hfields _ _ _ hentered hf).leaves⟩

/-- A conversion that ends well stores no type without keywords. -/
theorem settling_node (options : Options) (schema : Json) (enclosing : Text) :
    Settling options (node options schema enclosing) :=
  (Settling.compositional options).node (fun _ _ _ _ => trivial) (fun name _ => settling_typeName name)
    (fun _ _ _ _ _ hs => settling_leaf hs) (fun _ _ _ _ hs h _ => settling_record hs h)
    schema trivial enclosing

/-! ### The second conversion -/

/-- An enum or a fixed type is stored again where it is stored already. -/
theorem repeats_leaf {kind : Leaf} {name : Text} {attributes : Json.Entries}
    (hs : objectShape attributes = .leaf kind name attributes) :
    Repeats options (leaf options kind name attributes enclosing)
      (leaf options kind name attributes enclosing) := by
  intro c c' es d _ hok hmet hd
  obtain ⟨q, keywords, hq, hk, -, rfl⟩ := leaf_ok hok
  obtain ⟨-, hn, ht⟩ := objectShape_leaf hs
  refine ⟨Keywords.annotate attributes keywords,
    if q.isEmpty then d else d.addNamed q attributes, ?_, ?_⟩
  · rw [outcome_leaf, hq]
    dsimp only
    rw [hk]
    rfl
  · cases hempty : q.isEmpty with
    | true => exact hd.keeps
    | false =>
      rw [hempty] at hmet
      have hkey : q ∈ d.named.keys := hmet.named q (mem_keys_set.2 (.inr rfl))
      exact ⟨hd.addNamed (defines_of_leaf hn ht hq) hs hk, rfl, rfl,
        Table.keys_set_of_mem (Table.sharp_of_lawful q) hkey attributes⟩

/-- A name that has been converted is converted again, also where it means another type by now. -/
theorem repeats_typeName (name : Text) :
    Repeats options (typeName options name enclosing) (typeName options name enclosing) := by
  intro c c' es d hc hok hmet hd
  have hevolves := (evolving_typeName name).of_ok hc hok
  rcases typeName_ok hc hok with ⟨p, hp, -, -⟩ | ⟨q, hp, hr, -⟩
  · refine ⟨(Scalar.primitive p).apply false [], d, ?_, hd.keeps⟩
    rw [outcome_typeName, hp]
  · obtain ⟨q', hr'⟩ := (hmet.of_evolves hevolves).resolve hr
    by_cases hseen : q' ∈ d.seen
    · refine ⟨Keywords.reference options.draft q', d, ?_, hd.keeps⟩
      rw [outcome_typeName, hp, hr']
      dsimp only
      rw [if_pos hseen, outcome_reference]
      rfl
    · obtain ⟨attributes, ha⟩ := resolve_ok hr'
      obtain ⟨kind, n, hs⟩ := hd.sound.leaf_of_unseen ha hseen
      have hmem := Table.mem_of_get?_eq_some (Table.sharp_of_lawful _) ha
      obtain ⟨keywords, hk⟩ := hd.leaves q' attributes kind n hmem hs
      refine ⟨Keywords.annotate attributes keywords, d, ?_, hd.keeps⟩
      have hk' : leafKeywords options.setup.options kind q' attributes = .ok keywords := hk
      rw [outcome_typeName_of_leaf hd.sound hp hr' hseen ha hs, hk']
      rfl

theorem repeats_branches {nodes : List Json}
    (h : ∀ j ∈ nodes, ∀ enclosing,
      Repeats options (node options j enclosing) (node options j enclosing)) :
    Repeats options (branches options nodes enclosing) (branches options nodes enclosing) := by
  induction nodes with
  | nil =>
    rw [branches_nil]
    exact .pure _ _
  | cons j js ih =>
    rw [branches_cons]
    have hrest : Evolving (branches options js enclosing) :=
      evolving_branches fun i _ => evolving_node i
    exact .bind (evolving_node _ _) (fun _ => hrest.map _) (h j List.mem_cons_self enclosing)
      fun _ _ => .map _ _ hrest (ih fun i hi => h i (List.mem_cons_of_mem _ hi))

/-- A union of null and another type asks for the kind of that type again, and is told the same. -/
theorem repeats_nullable {members : List Json} {member : Json}
    (hu : unionForm members = .nullable member)
    (h : Repeats options (node options member enclosing) (node options member enclosing)) :
    Repeats options (union options members enclosing) (union options members enclosing) := by
  cases hflatten : options.flattenNullableUnions with
  | true =>
    have hflat : union options members enclosing = node options member enclosing :=
      union_of_flattened hu hflatten
    rw [hflat]
    exact h
  | false =>
    intro c c' es d hc hok hmet hd
    obtain ⟨k, hk⟩ := kind_of_unionForm hu
    obtain ⟨k', hr, ⟨p, hp, -, -⟩ | ⟨hp, branch, hnode, -⟩⟩ := nullable_ok hu hflatten hok
    · obtain ⟨t, hkind, ht⟩ := kind_of_resolveKind hc hr hp
      exact ⟨_, d, union_of_scalar hu hflatten (resolveKind_of_primitive hkind ht) ht, hd.keeps⟩
    · -- the member is converted again, so that its kind can be told, and it is still no primitive one
      obtain ⟨branch', d', hd', hkeeps⟩ := h _ _ _ _ hc hnode hmet hd
      obtain ⟨k₁, hr₁, hp₁⟩ := resolveKind_of_converted hd.sound hk
        (not_primitive_of_resolveKind hk hr hp) hd'
      exact ⟨_, d', union_of_converted hu hflatten hr₁ hp₁ hd', hkeeps⟩

theorem repeats_union {members : List Json}
    (h : ∀ j ∈ members, ∀ enclosing,
      Repeats options (node options j enclosing) (node options j enclosing)) :
    Repeats options (union options members enclosing) (union options members enclosing) := by
  cases hu : unionForm members with
  | fault fault =>
    rw [union_of_fault hu]
    exact .throw _ _
  | choice =>
    rw [union_of_choice hu]
    exact .map _ _ (evolving_branches fun j _ => evolving_node j) (repeats_branches h)
  | nullable member => exact repeats_nullable hu (h member (mem_of_unionForm hu) enclosing)

/-- A record that has been converted is a reference from then on; its fields are not looked at. -/
theorem repeats_record {name : Text} {attributes : Json.Entries}
    (hs : shape schema = .record name attributes) :
    Repeats options (node options schema enclosing) (node options schema enclosing) := by
  intro c c' es d hc hok hmet hd
  have hevolves := (evolving_node schema enclosing).of_ok hc hok
  obtain ⟨q, hq, hcases⟩ := record_ok hs hok
  have hentered : q ∈ c'.seen := by
    rcases hcases with ⟨hseen, -⟩ | ⟨hnew, list, made, c₁, hl, hf, -, rfl⟩
    · exact hevolves.seen_subset hseen
    · have hfields : Evolving (fields options q list.1 [] []) :=
        evolving_fields (fun _ _ _ _ type _ enclosing => evolving_node type enclosing) [] []
      have hsound : (c.enter q attributes).Sound := hc.enter (defines_of_record hs hq) hnew
      exact (hfields.of_ok hsound hf).seen_subset (List.mem_append_right _ List.mem_cons_self)
  refine ⟨Keywords.reference options.draft q, d, ?_, hd.keeps⟩
  rw [outcome_record hs, hq]
  dsimp only
  rw [if_pos (hmet.seen q hentered), outcome_reference]
  rfl

/-- **A node that has been converted is converted again** wherever all that it has met has been met, and
nothing new is met. -/
theorem repeats_node (options : Options) (schema : Json) (enclosing : Text) :
    Repeats options (node options schema enclosing) (node options schema enclosing) := by
  induction schema using Schema.induction generalizing enclosing with
  | step schema ih =>
    cases hs : shape schema with
    | malformed fault =>
      rw [node_of_malformed hs]
      exact .throw _ _
    | union members =>
      rw [node_of_union hs]
      exact repeats_union fun j hj => ih j (.member hs hj)
    | name name =>
      rw [node_of_name hs]
      exact repeats_typeName name
    | wrapper inner =>
      rw [node_of_wrapper hs]
      exact ih inner (.inner hs) enclosing
    | primitive p attributes =>
      rw [node_of_primitive hs]
      exact .pure _ _
    | leaf kind name attributes =>
      obtain ⟨es, rfl, rfl⟩ := fits_of_shape hs (by simp) (by simp) (by simp)
      rw [node_of_leaf hs]
      exact repeats_leaf hs
    | array items attributes =>
      rw [node_of_array hs]
      exact .map _ _ (evolving_node _ _) (ih items (.items hs) enclosing)
    | map values attributes =>
      rw [node_of_map hs]
      exact .map _ _ (evolving_node _ _) (ih values (.values hs) enclosing)
    | reference name attributes =>
      rw [node_of_reference hs]
      exact .map _ _ (evolving_typeName name) (repeats_typeName name)
    | record name attributes => exact repeats_record hs

end Conversion

namespace Session

open Step Conversion

theorem settling_call (options : Options) (call : Call) : Settling options (call.step options) := by
  cases call with
  | node schema enclosing => exact settling_node options schema enclosing
  | union members enclosing => exact (Settling.compositional options).union fun j _ => settling_node options j enclosing
  | typeName name enclosing => exact settling_typeName name

/-- Calls that all end well leave a settled context. -/
theorem run_settled {options : Options} {c : Context} (h : c.Settled options) {calls : List Call}
    (hok : ∀ result ∈ (run options c calls).1, ∃ keywords, result = .ok keywords) :
    (run options c calls).2.Settled options := by
  induction calls generalizing c with
  | nil => exact h
  | cons call calls ih =>
    obtain ⟨keywords, hfirst⟩ := hok _ List.mem_cons_self
    exact ih (settling_call options call c _ keywords h (Prod.ext hfirst rfl))
      fun result hr => hok result (List.mem_cons_of_mem _ hr)

/-- **A schema that is converted again defines nothing new.**  After a session of calls that all end
well, let a schema be converted.  If it is converted again within the same namespace in the context
that this leaves, it is converted once more; the records that have been entered and the definitions are
exactly as they were, and no name has come to be defined. -/
theorem converted_again (options : Options) (calls : List Call)
    (hok : ∀ result ∈ (run options Context.empty calls).1, ∃ keywords, result = .ok keywords)
    (schema : Json) (enclosing : Text) (es : Json.Entries) (c : Context)
    (h : outcome (node options schema enclosing) (run options Context.empty calls).2 = (.ok es, c)) :
    ∃ again d, outcome (node options schema enclosing) c = (.ok again, d)
      ∧ d.seen = c.seen ∧ d.definitions = c.definitions ∧ d.named.keys = c.named.keys := by
  have hbefore : (run options Context.empty calls).2.Settled options := run_settled .empty hok
  have hafter : c.Settled options := settling_node options schema enclosing _ _ _ hbefore h
  obtain ⟨again, d, hd, hkeeps⟩ := repeats_node options schema enclosing _ c es c hbefore.sound h
    ⟨fun _ hq => hq, fun _ hq => hq⟩ hafter
  exact ⟨again, d, hd, hkeeps.seen, hkeeps.definitions, hkeeps.named⟩

/-- A unit of no namespace. -/
def worldUnit : Json :=
  .obj [(.text "type", "enum"), (.text "name", "Unit"), (.text "symbols", .arr ["one"])]

/-- The unit of no namespace, a record that holds itself, and a unit of the namespace around. -/
def measures : Json :=
  .arr ["Unit",
    .obj [(.text "type", "record"), (.text "name", "Measure"), (.text "fields", .arr [
      .obj [(.text "name", "part"), (.text "type", .arr ["null", "Measure"])]])],
    .obj [(.text "type", "enum"), (.text "name", "Unit"), (.text "symbols", .arr ["metre"])]]

/-- When the measures are converted again, the first name means the last type. -/
theorem converted_again_measures :
    let before := run Options.strict Context.empty [.node worldUnit []]
    let c := (outcome (node Options.strict measures "lab") before.2).2
    (∀ result ∈ before.1, ∃ keywords, result = .ok keywords)
      ∧ before.2.resolve "Unit" "lab" = .ok "Unit" ∧ c.resolve "Unit" "lab" = .ok "lab.Unit"
      ∧ ∃ again d, outcome (node Options.strict measures "lab") c = (.ok again, d)
        ∧ d.seen = c.seen ∧ d.definitions = c.definitions ∧ d.named.keys = c.named.keys := by
  intro before c
  have hmeans : (before.2.resolve "Unit" "lab").toOption = some (Text.ofString "Unit") := by
    decide +kernel
  have hr : before.2.resolve "Unit" "lab" = .ok "Unit" := by
    cases h : before.2.resolve "Unit" "lab" <;> rw [h] at hmeans <;> cases hmeans
    rfl
  have hmeans' : (c.resolve "Unit" "lab").toOption = some (Text.ofString "lab.Unit") := by
    decide +kernel
  have hr' : c.resolve "Unit" "lab" = .ok "lab.Unit" := by
    cases h : c.resolve "Unit" "lab" <;> rw [h] at hmeans' <;> cases hmeans'
    rfl
  have hdone : ∀ result ∈ before.1, ∃ keywords, result = .ok keywords := by
    have hall : (before.1.all fun result => result.toBool) = true := by decide +kernel
    intro result hmem
    have hresult := List.all_eq_true.1 hall result hmem
    cases result with
    | ok keywords => exact ⟨keywords, rfl⟩
    | error fault => cases hresult
  have hfirst : (outcome (node Options.strict measures "lab") before.2).1.toBool = true := by
    decide +kernel
  cases h : (outcome (node Options.strict measures "lab") before.2).1 with
  | error fault => rw [h] at hfirst; cases hfirst
  | ok es =>
    exact ⟨hdone, hr, hr', converted_again Options.strict [.node worldUnit []] hdone measures "lab" es c
      (Prod.ext h rfl)⟩

end Session

end AvroJsonSchema
