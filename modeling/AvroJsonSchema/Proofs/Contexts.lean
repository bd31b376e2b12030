import AvroJsonSchema.Proofs.Composition
import AvroJsonSchema.Proofs.NamedTypes

/-!
# How a context evolves

Three tables are written at different moments: a named type when it is met, a record when it is
entered, its definition when it is left.  One invariant ties them together, and one relation says
what any part of a conversion does to them, whether it ends well or not: records are entered, and
those that are not left again are **unfinished**.

* **`Context.Sound`**: the invariant.
* **`Context.Evolves`**: a context comes out of another one, with some records unfinished.
* **`Step.Evolving`**: a part keeps the invariant, and leaves nothing unfinished if it ends well.
* **`Conversion.evolving_node`**, **`Conversion.evolving_union`**,
  **`Conversion.evolving_typeName`**: every part of a conversion does.
-/

namespace AvroJsonSchema

namespace Context

open Schema

/-- What holds of every context that a conversion comes through. -/
structure Sound (c : Context) : Prop where
  /-- What has been left has been entered. -/
  defined_seen : ∀ q ∈ c.definitions.keys, q ∈ c.seen
  /-- What has been entered has been named. -/
  seen_named : ∀ q ∈ c.seen, q ∈ c.named.keys
  /-- A named type is a definition of its name. -/
  named_defines : ∀ q attributes, (q, attributes) ∈ c.named → Defines attributes q
  /-- A named record has been entered. -/
  record_seen : ∀ q attributes, (q, attributes) ∈ c.named → IsRecord attributes → q ∈ c.seen
  seen_nodup : c.seen.Nodup
  definitions_nodup : c.definitions.keys.Nodup
  named_nodup : c.named.keys.Nodup

theorem Sound.empty : Sound empty where
  defined_seen := by simp [Context.empty, Table.keys]
  seen_named := by simp [Context.empty]
  named_defines := by simp [Context.empty]
  record_seen := by simp [Context.empty]
  seen_nodup := by simp [Context.empty]
  definitions_nodup := by simp [Context.empty, Table.keys]
  named_nodup := by simp [Context.empty, Table.keys]

theorem resolve_eq_ok_iff {c : Context} {name enclosing qualified : Text} :
    c.resolve name enclosing = .ok qualified ↔
      (candidates name enclosing).find? (c.named.has ·) = some qualified := by
  unfold resolve
  split <;> rename_i hfind <;> rw [hfind] <;> simp

/-- A name that means something means a named type. -/
theorem resolve_ok {c : Context} {name enclosing qualified : Text}
    (h : c.resolve name enclosing = .ok qualified) :
    ∃ attributes, c.named.get? qualified = some attributes := by
  have hhas : c.named.has qualified = true := by
    simpa using List.find?_some (resolve_eq_ok_iff.1 h)
  exact Option.isSome_iff_exists.1 hhas

/-- What has been named but not entered is an enum or a fixed type. -/
theorem Sound.leaf_of_unseen {c : Context} (h : c.Sound) {q : Text} {attributes : Json.Entries}
    (ha : c.named.get? q = some attributes) (hq : q ∉ c.seen) :
    ∃ kind name, objectShape attributes = .leaf kind name attributes := by
  have hmem := Table.mem_of_get?_eq_some (Table.sharp_of_lawful _) ha
  exact (h.named_defines _ _ hmem).leaf_of_not_record fun hrec => hq (h.record_seen _ _ hmem hrec)

/-! ### One write -/

theorem mem_keys_set {k q : Text} {v : Json.Entries} {t : Table Text Json.Entries} :
    q ∈ (t.set k v).keys ↔ q ∈ t.keys ∨ q = k := by
  rw [Table.keys_set]
  split
  · rename_i hk
    exact ⟨.inl, fun h => h.elim id fun hq => hq ▸ hk⟩
  · simp

/-- A named type that is no unseen record may be met. -/
theorem Sound.addNamed {c : Context} (h : c.Sound) {q : Text} {attributes : Json.Entries}
    (hd : Defines attributes q) (hr : IsRecord attributes → q ∈ c.seen) :
    (c.addNamed q attributes).Sound where
  defined_seen := h.defined_seen
  seen_named p hp := mem_keys_set.2 (.inl (h.seen_named p hp))
  named_defines p es hp := by
    rcases Table.mem_set_sharp (Table.sharp_of_lawful q) hp with hp | hp
    · exact h.named_defines p es hp
    · cases hp
      exact hd
  record_seen p es hp hes := by
    rcases Table.mem_set_sharp (Table.sharp_of_lawful q) hp with hp | hp
    · exact h.record_seen p es hp hes
    · cases hp
      exact hr hes
  seen_nodup := h.seen_nodup
  definitions_nodup := h.definitions_nodup
  named_nodup := Table.nodup_keys_set (Table.sharp_of_lawful q) h.named_nodup attributes

/-- A record that has not been entered may be. -/
theorem Sound.enter {c : Context} (h : c.Sound) {q : Text} {attributes : Json.Entries}
    (hd : Defines attributes q) (hq : q ∉ c.seen) : (c.enter q attributes).Sound where
  defined_seen p hp := List.mem_append_left _ (h.defined_seen p hp)
  seen_named p hp := by
    rcases List.mem_append.1 hp with hp | hp
    · exact mem_keys_set.2 (.inl (h.seen_named p hp))
    · exact mem_keys_set.2 (.inr (List.mem_singleton.1 hp))
  named_defines p es hp := by
    rcases Table.mem_set_sharp (Table.sharp_of_lawful q) hp with hp | hp
    · exact h.named_defines p es hp
    · cases hp
      exact hd
  record_seen p es hp hes := by
    rcases Table.mem_set_sharp (Table.sharp_of_lawful q) hp with hp | hp
    · exact List.mem_append_left _ (h.record_seen p es hp hes)
    · cases hp
      exact List.mem_append_right _ List.mem_cons_self
  seen_nodup := by
    refine List.nodup_append.2 ⟨h.seen_nodup, by simp, ?_⟩
    intro a ha b hb hab
    rw [List.mem_singleton] at hb
    exact hq (hb ▸ hab ▸ ha)
  definitions_nodup := h.definitions_nodup
  named_nodup := Table.nodup_keys_set (Table.sharp_of_lawful q) h.named_nodup attributes

/-- A record that has been entered may be left. -/
theorem Sound.define {c : Context} (h : c.Sound) {q : Text} (hq : q ∈ c.seen)
    (schema : Json.Entries) : (c.define q schema).Sound where
  defined_seen p hp := (mem_keys_set.1 hp).elim (h.defined_seen p) fun hp => hp ▸ hq
  seen_named := h.seen_named
  named_defines := h.named_defines
  record_seen := h.record_seen
  seen_nodup := h.seen_nodup
  definitions_nodup := Table.nodup_keys_set (Table.sharp_of_lawful q) h.definitions_nodup schema
  named_nodup := h.named_nodup

/-- A definition that is met again under its full name is there already. -/
theorem addNamed_of_get? {c : Context} {q : Text} {attributes : Json.Entries}
    (h : c.named.get? q = some attributes) :
    c.addNamed q attributes = c := by
  have hset : c.named.set q attributes = c.named := Table.set_of_get? h
  show { c with named := c.named.set q attributes } = c
  rw [hset]

/-! ### Many writes -/

/-- A context comes out of another one: names are added at the end, records are entered, and those
that are not `unfinished` are left, after all that had been left before. -/
structure Evolves (c c' : Context) (unfinished : List Text) : Prop where
  sound : c'.Sound
  named : ∃ more, c'.named.keys = c.named.keys ++ more
  records : ∃ entered finished, c'.seen = c.seen ++ entered
    ∧ c'.definitions = c.definitions ++ finished
    ∧ entered.Perm (Table.keys finished ++ unfinished)

theorem Evolves.refl {c : Context} (h : c.Sound) : c.Evolves c [] :=
  ⟨h, ⟨[], by simp⟩, [], [], by simp, by simp, by simp [Table.keys]⟩

theorem Evolves.trans {c c' c'' : Context} {unfinished : List Text} (h : c.Evolves c' [])
    (h' : c'.Evolves c'' unfinished) : c.Evolves c'' unfinished := by
  obtain ⟨more, hm⟩ := h.named
  obtain ⟨more', hm'⟩ := h'.named
  obtain ⟨entered, finished, hs, hd, hp⟩ := h.records
  obtain ⟨entered', finished', hs', hd', hp'⟩ := h'.records
  refine ⟨h'.sound, ⟨more ++ more', ?_⟩, entered ++ entered', finished ++ finished', ?_, ?_, ?_⟩
  · rw [hm', hm, List.append_assoc]
  · rw [hs', hs, List.append_assoc]
  · rw [hd', hd, List.append_assoc]
  · rw [List.append_nil] at hp
    rw [Table.keys_append, List.append_assoc]
    exact hp.append hp'

theorem Evolves.seen_subset {c c' : Context} {unfinished : List Text}
    (h : c.Evolves c' unfinished) {q : Text} (hq : q ∈ c.seen) : q ∈ c'.seen := by
  obtain ⟨entered, finished, hs, -⟩ := h.records
  rw [hs]
  exact List.mem_append_left _ hq

/-- Without an unfinished record, what is newly entered is what is newly defined. -/
theorem Evolves.defined_of_seen {c c' : Context} (h : c.Evolves c' [])
    {q : Text} (hq : q ∈ c'.seen) : q ∈ c.seen ∨ q ∈ c'.definitions.keys := by
  obtain ⟨entered, finished, hs, hd, hp⟩ := h.records
  rw [hs, List.mem_append] at hq
  rw [List.append_nil] at hp
  refine hq.imp_right fun hq => ?_
  rw [hd, Table.keys_append]
  exact List.mem_append_right _ (hp.mem_iff.1 hq)

/-- Definitions are added at the end. -/
theorem Evolves.definitions_grow {c c' : Context} {unfinished : List Text}
    (h : c.Evolves c' unfinished) : c.definitions <+: c'.definitions := by
  obtain ⟨entered, finished, -, hd, -⟩ := h.records
  exact ⟨finished, hd.symm⟩

/-- A record that has not been defined is defined at the end. -/
theorem define_grows {c : Context} {q : Text} (h : q ∉ c.definitions.keys)
    (schema : Json.Entries) : c.definitions <+: (c.define q schema).definitions :=
  ⟨[(q, schema)], (Table.set_of_not_mem (Table.sharp_of_lawful q) h schema).symm⟩

/-- What has been defined stays as it is. -/
theorem Evolves.get?_definitions {c c' : Context} {unfinished : List Text}
    (h : c.Evolves c' unfinished) {q : Text} {keywords : Json.Entries}
    (hq : c.definitions.get? q = some keywords) : c'.definitions.get? q = some keywords := by
  have hsharp := Table.sharp_of_lawful q
  obtain ⟨entered, finished, -, hd, -⟩ := h.records
  refine Table.get?_of_mem hsharp h.sound.definitions_nodup ?_
  rw [hd]
  exact List.mem_append_left _ (Table.mem_of_get?_eq_some hsharp hq)

/-- A record that had been entered and not left is not left. -/
theorem Evolves.not_defined {c c' : Context} (h : c.Evolves c' []) {q : Text} (hseen : q ∈ c.seen)
    (hq : q ∉ c.definitions.keys) : q ∉ c'.definitions.keys := by
  obtain ⟨entered, finished, hs, hd, hp⟩ := h.records
  rw [List.append_nil] at hp
  rw [hd, Table.keys_append]
  intro hc
  rcases List.mem_append.1 hc with hc | hc
  · exact hq hc
  · have hnodup := h.sound.seen_nodup
    rw [hs] at hnodup
    exact (List.nodup_append.1 hnodup).2.2 q hseen q (hp.mem_iff.2 hc) rfl

theorem keys_addNamed (c : Context) (q : Text) (attributes : Json.Entries) :
    ∃ more, (c.addNamed q attributes).named.keys = c.named.keys ++ more := by
  show ∃ more, (c.named.set q attributes).keys = _
  rw [Table.keys_set]
  split
  · exact ⟨[], by simp⟩
  · exact ⟨[q], rfl⟩

theorem Evolves.addNamed {c : Context} (h : c.Sound) {q : Text} {attributes : Json.Entries}
    (hd : Defines attributes q) (hr : IsRecord attributes → q ∈ c.seen) :
    c.Evolves (c.addNamed q attributes) [] :=
  ⟨h.addNamed hd hr, keys_addNamed c q attributes, [], [],
    (List.append_nil _).symm, (List.append_nil _).symm, .refl _⟩

/-- A record that is entered and not left again is unfinished. -/
theorem Evolves.of_enter {c c' : Context} {q : Text} {attributes : Json.Entries}
    {unfinished : List Text} (he : (c.enter q attributes).Evolves c' unfinished) :
    c.Evolves c' (q :: unfinished) := by
  obtain ⟨more, hm⟩ := keys_addNamed c q attributes
  obtain ⟨more', (hm' : c'.named.keys = (c.addNamed q attributes).named.keys ++ more')⟩ := he.named
  obtain ⟨entered, finished, hs, hdef, hp⟩ := he.records
  refine ⟨he.sound, ⟨more ++ more', ?_⟩, q :: entered, finished, ?_, hdef, ?_⟩
  · rw [hm', hm, List.append_assoc]
  · rw [hs]
    show c.seen ++ [q] ++ entered = _
    rw [List.append_assoc]
    rfl
  · exact (hp.cons q).trans List.perm_middle.symm

/-- A record that is entered, and left after its fields, is finished. -/
theorem Evolves.of_enter_define {c c' : Context} (h : c.Sound) {q : Text}
    {attributes schema : Json.Entries} (hq : q ∉ c.seen)
    (he : (c.enter q attributes).Evolves c' []) : c.Evolves (c'.define q schema) [] := by
  have hmem : q ∈ c'.seen := he.seen_subset (List.mem_append_right _ List.mem_cons_self)
  obtain ⟨more, hm⟩ := keys_addNamed c q attributes
  obtain ⟨more', (hm' : c'.named.keys = (c.addNamed q attributes).named.keys ++ more')⟩ := he.named
  obtain ⟨entered, finished, hs, hdef, hp⟩ := he.records
  rw [List.append_nil] at hp
  -- the fields cannot finish the record around them: it has been entered
  have hnew : q ∉ c'.definitions.keys :=
    he.not_defined (List.mem_append_right _ List.mem_cons_self) fun hc => hq (h.defined_seen q hc)
  refine ⟨he.sound.define hmem schema, ⟨more ++ more', ?_⟩, q :: entered,
    finished ++ [(q, schema)], ?_, ?_, ?_⟩
  · show c'.named.keys = _
    rw [hm', hm, List.append_assoc]
  · show c'.seen = _
    rw [hs]
    show c.seen ++ [q] ++ entered = _
    rw [List.append_assoc]
    rfl
  · show c'.definitions.set q schema = _
    rw [Table.set_of_not_mem (Table.sharp_of_lawful q) hnew, hdef]
    show c.definitions ++ finished ++ _ = _
    rw [List.append_assoc]
  · rw [Table.keys_append, List.append_nil]
    exact (hp.cons q).trans (List.perm_append_singleton q _).symm

end Context

namespace Step

variable {α β : Type}

/-- A part of a conversion keeps the invariant, and leaves nothing unfinished if it ends well. -/
def Evolving (x : Step α) : Prop :=
  ∀ c, c.Sound → ∃ unfinished, c.Evolves (outcome x c).2 unfinished
    ∧ ∀ a, (outcome x c).1 = .ok a → unfinished = []

/-- A part that ends well leaves nothing unfinished. -/
theorem Evolving.of_ok {x : Step α} (h : Evolving x) {c c' : Context} {a : α} (hc : c.Sound)
    (hok : outcome x c = (.ok a, c')) : c.Evolves c' [] := by
  obtain ⟨unfinished, he, hu⟩ := h c hc
  rw [hok] at he hu
  have hnone := hu a rfl
  rwa [hnone] at he

/-- A part that leaves the context as it is. -/
theorem Evolving.of_still {x : Step α} (h : ∀ c, (outcome x c).2 = c) : Evolving x := by
  intro c hc
  rw [h c]
  exact ⟨[], .refl hc, fun _ _ => rfl⟩

theorem Evolving.pure (a : α) : Evolving (pure a : Step α) :=
  .of_still fun _ => rfl

theorem Evolving.ofExcept (x : Except Fault α) : Evolving (ofExcept x) :=
  .of_still fun c => by rw [outcome_ofExcept]

theorem Evolving.inspect (look : Context → Except Fault α) : Evolving (inspect look) :=
  .of_still fun c => by rw [outcome_inspect]

theorem Evolving.bind {x : Step α} {f : α → Step β} (hx : Evolving x) (hf : ∀ a, Evolving (f a)) :
    Evolving (x >>= f) := by
  intro c hc
  obtain ⟨unfinished, he, hu⟩ := hx c hc
  rw [outcome_bind]
  rcases ho : outcome x c with ⟨result, c'⟩
  rw [ho] at he hu
  cases result with
  | error fault => exact ⟨unfinished, he, fun a ha => by cases ha⟩
  | ok a =>
    rw [hu a rfl] at he
    obtain ⟨unfinished', he', hu'⟩ := hf a c' he.sound
    exact ⟨unfinished', he.trans he', hu'⟩

theorem Evolving.map {x : Step α} (g : α → β) (hx : Evolving x) : Evolving (x >>= Pure.pure ∘ g) :=
  hx.bind fun a => .pure (g a)

theorem Evolving.compositional : Compositional @Evolving :=
  ⟨.ofExcept, .inspect, .bind⟩

end Step

namespace Conversion

open Schema Step

variable {setup : Setup} {enclosing : Text}

theorem evolving_reference (name : Text) : Evolving (reference setup name) :=
  .ofExcept _

/-- An enum or a fixed type is named at most. -/
theorem evolving_leaf (options : Options) {kind : Leaf} {name : Text} {attributes es : Json.Entries}
    (h : objectShape es = .leaf kind name attributes) :
    Evolving (leaf options kind name attributes enclosing) := by
  intro c hc
  obtain ⟨rfl, hn, ht⟩ := objectShape_leaf h
  rw [outcome_leaf]
  cases hq : Name.ofNamed name attributes enclosing with
  | error fault => exact ⟨[], .refl hc, fun _ _ => rfl⟩
  | ok qualified =>
    refine ⟨[], ?_, fun _ _ => rfl⟩
    dsimp only
    split
    · exact .refl hc
    · exact .addNamed hc (defines_of_leaf hn ht hq) fun hr => absurd hr (not_isRecord_of_leaf ht)

/-- A named type that has not been entered is an enum or a fixed type, so that its name is converted
as the stored definition is, inside the namespace of its full name. -/
theorem outcome_typeName_of_unseen {name qualified : Text} {attributes : Json.Entries} {c : Context}
    (hc : c.Sound) (hp : Primitive.ofText? name = none)
    (hr : c.resolve name enclosing = .ok qualified) (hq : qualified ∉ c.seen)
    (ha : c.named.get? qualified = some attributes) :
    outcome (typeName setup name enclosing) c =
      outcome (node setup (.obj attributes) (Name.namespaceOf qualified)) c := by
  obtain ⟨kind, n, hs⟩ := hc.leaf_of_unseen ha hq
  have hnode : node setup (.obj attributes) (Name.namespaceOf qualified) = _ := node_of_leaf hs
  simp only [outcome_typeName, hp, hr, ha, hq, if_false, Option.getD_some, hs, hnode]

/-- What the conversion of a name that ends well has done. -/
theorem typeName_ok {name : Text} {c c' : Context} {es : Json.Entries} (hc : c.Sound)
    (h : outcome (typeName setup name enclosing) c = (.ok es, c')) :
    (∃ p, Primitive.ofText? name = some p ∧ es = (Scalar.primitive p).apply false [] ∧ c' = c)
      ∨ ∃ qualified, Primitive.ofText? name = none ∧ c.resolve name enclosing = .ok qualified
        ∧ ((qualified ∈ c.seen ∧ outcome (reference setup qualified) c = (.ok es, c'))
          ∨ (qualified ∉ c.seen ∧ ∃ kind n attributes, (qualified, attributes) ∈ c.named
            ∧ objectShape attributes = .leaf kind n attributes
            ∧ outcome (leaf setup.options kind n attributes (Name.namespaceOf qualified)) c
              = (.ok es, c'))) := by
  cases hp : Primitive.ofText? name with
  | some p =>
    rw [outcome_typeName, hp] at h
    cases h
    exact .inl ⟨p, rfl, rfl, rfl⟩
  | none =>
    cases hr : c.resolve name enclosing with
    | error fault =>
      rw [outcome_typeName, hp, hr] at h
      cases h
    | ok qualified =>
      refine .inr ⟨qualified, rfl, rfl, ?_⟩
      obtain ⟨attributes, ha⟩ := Context.resolve_ok hr
      have hmem := Table.mem_of_get?_eq_some (Table.sharp_of_lawful _) ha
      by_cases hq : qualified ∈ c.seen
      · simp only [outcome_typeName, hp, hr, hq, if_true] at h
        exact .inl ⟨hq, h⟩
      · obtain ⟨kind, n, hs⟩ := hc.leaf_of_unseen ha hq
        have hnode : node setup (.obj attributes) (Name.namespaceOf qualified) = _ :=
          node_of_leaf hs
        rw [outcome_typeName_of_unseen hc hp hr hq ha, hnode] at h
        exact .inr ⟨hq, kind, n, attributes, hmem, hs, h⟩

theorem evolving_typeName (name : Text) : Evolving (typeName setup name enclosing) := by
  intro c hc
  rw [outcome_typeName]
  split
  · exact ⟨[], .refl hc, fun _ _ => rfl⟩
  · split
    · exact ⟨[], .refl hc, fun _ _ => rfl⟩
    · split
      · exact evolving_reference _ c hc
      · split
        · rename_i hs
          exact evolving_leaf setup.options hs c hc
        · exact evolving_reference _ c hc

theorem evolving_branches {nodes : List Json}
    (h : ∀ j ∈ nodes, ∀ enclosing, Evolving (node setup j enclosing)) :
    Evolving (branches setup nodes enclosing) :=
  Evolving.compositional.branches fun j hj => h j hj enclosing

theorem evolving_union_of {members : List Json}
    (h : ∀ j ∈ members, ∀ enclosing, Evolving (node setup j enclosing)) :
    Evolving (union setup members enclosing) :=
  Evolving.compositional.union fun j hj => h j hj enclosing

theorem evolving_fields {record : Text} {list : List Json}
    (h : ∀ field ∈ list, ∀ attributes name type,
      fieldParts record field = .ok (attributes, name, type) →
      ∀ enclosing, Evolving (node setup type enclosing))
    (properties : Json.Entries) (required : List Json) :
    Evolving (fields setup record list properties required) :=
  Evolving.compositional.fields (fun field hf _ _ _ hp => h field hf _ _ _ hp _) properties required

/-- A record is entered unless it has been before, and left after its fields unless one of them
fails. -/
theorem evolving_record {schema : Json} {name : Text} {attributes : Json.Entries}
    (hs : shape schema = .record name attributes)
    (h : ∀ j, Child j schema → ∀ enclosing, Evolving (node setup j enclosing)) :
    Evolving (node setup schema enclosing) := by
  intro c hc
  rw [outcome_record hs]
  cases hq : Name.ofNamed name attributes enclosing with
  | error fault => exact ⟨[], .refl hc, fun _ _ => rfl⟩
  | ok qualified =>
    dsimp only
    split
    · exact evolving_reference _ c hc
    · rename_i hseen
      have hd := defines_of_record hs hq
      have hsound := hc.enter hd hseen
      rw [outcome_recordBody]
      cases hl : fieldList qualified attributes with
      | error fault =>
        exact ⟨[qualified], .of_enter (.refl hsound), fun a ha => by cases ha⟩
      | ok list =>
        dsimp only
        have hfields : Evolving (fields setup qualified list.1 [] []) := by
          refine evolving_fields (fun field hf es n type hp => ?_) [] []
          exact h type (child_of_field hs (fieldList_ok hl) hf hp)
        obtain ⟨unfinished, he, hu⟩ := hfields _ hsound
        rcases ho : outcome (fields setup qualified list.1 [] []) (c.enter qualified attributes)
          with ⟨result, c'⟩
        rw [ho] at he hu
        cases result with
        | error fault =>
          exact ⟨qualified :: unfinished, .of_enter he, fun a ha => by cases ha⟩
        | ok pair =>
          rw [hu pair rfl] at he
          exact ⟨[], .of_enter_define hc hseen he, fun _ _ => rfl⟩

/-- **Every node evolves the context**, whatever it is and wherever it stands. -/
theorem evolving_node (schema : Json) (enclosing : Text) :
    Evolving (node setup schema enclosing) :=
  Evolving.compositional.node (fun _ _ _ _ => trivial) (fun name _ => evolving_typeName name)
    (fun _ _ _ _ _ hs => evolving_leaf setup.options hs)
    (fun _ _ _ _ hs h _ => evolving_record hs h) schema trivial enclosing

theorem evolving_union (members : List Json) (enclosing : Text) :
    Evolving (union setup members enclosing) :=
  evolving_union_of fun j _ => evolving_node j

end Conversion

end AvroJsonSchema
