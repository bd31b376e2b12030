import AvroJsonSchema.Proofs.Contexts
import AvroJsonSchema.Proofs.Pointer
import AvroJsonSchema.Proofs.Positions

/-!
# The references of a document

A reference is written as soon as its record has been entered, long before the record is left and its
entry exists.  What holds at every moment is therefore said about the names that will have been
entered in the end: every finished schema refers to some of them, and every entry of the definitions
is the finished conversion of the record of its name.  Once the whole schema has been converted, what
has been entered has been left.

* **`Conversion.Visit`**: a node comes to be converted while a whole schema is.
* **`Conversion.Finished`**: an entry is what the conversion of a record of some full name has made.
* **`Context.Closed`**: the invariant.  **`Conversion.closed_node`**: every node keeps it.
-/

namespace AvroJsonSchema

open Json Schema Step

namespace Conversion

/-- While a whole schema is converted, a node comes to be converted within a namespace and from a
context.  The member of a nullable union is counted also where its kind alone decides. -/
inductive Visit (setup : Setup) (whole : Json) : Json → Text → Context → Prop
  | whole : Visit setup whole whole [] Context.empty
  | inner {schema j : Json} {enclosing : Text} {c : Context} :
      Visit setup whole schema enclosing c → shape schema = .wrapper j →
      Visit setup whole j enclosing c
  | items {schema j : Json} {enclosing : Text} {c : Context} {attributes : Entries} :
      Visit setup whole schema enclosing c → shape schema = .array j attributes →
      Visit setup whole j enclosing c
  | values {schema j : Json} {enclosing : Text} {c : Context} {attributes : Entries} :
      Visit setup whole schema enclosing c → shape schema = .map j attributes →
      Visit setup whole j enclosing c
  | nullable {schema j : Json} {enclosing : Text} {c : Context} {members : List Json} :
      Visit setup whole schema enclosing c → shape schema = .union members →
      unionForm members = .nullable j → Visit setup whole j enclosing c
  | branch {schema j : Json} {enclosing : Text} {c c' : Context} {before after first : List Json} :
      Visit setup whole schema enclosing c → shape schema = .union (before ++ j :: after) →
      unionForm (before ++ j :: after) = .choice →
      outcome (branches setup before enclosing) c = (.ok first, c') →
      Visit setup whole j enclosing c'
  | field {schema j field fieldName : Json} {enclosing name qualified : Text} {c c' : Context}
      {attributes fieldAttributes : Entries} {before after : List Json}
      {made : Entries × List Json} :
      Visit setup whole schema enclosing c → shape schema = .record name attributes →
      Name.ofNamed name attributes enclosing = .ok qualified → qualified ∉ c.seen →
      attributes.attr? "fields" = some (.arr (before ++ field :: after)) →
      outcome (fields setup qualified before [] []) (c.enter qualified attributes)
        = (.ok made, c') →
      fieldParts qualified field = .ok (fieldAttributes, fieldName, j) →
      Visit setup whole j (Name.namespaceOf qualified) c'

/-- A node that comes to be converted stands in the schema. -/
theorem Visit.stands_below {setup : Setup} {whole schema : Json} {enclosing : Text} {c : Context}
    (h : Visit setup whole schema enclosing c) : Below schema whole := by
  induction h with
  | whole => exact .self _
  | inner _ hs ih => exact ih.trans (Child.inner hs).below
  | items _ hs ih => exact ih.trans (Child.items hs).below
  | values _ hs ih => exact ih.trans (Child.values hs).below
  | nullable _ hs hu ih => exact ih.trans (Child.member hs (mem_of_unionForm hu)).below
  | branch _ hs _ _ ih => exact ih.trans (Child.member hs (by simp)).below
  | field _ hs _ _ hl _ hp ih => exact ih.trans (child_of_field hs hl (by simp) hp).below

/-- An entry is what the conversion of a record has made that has a full name and that had not been
entered before. -/
def Finished (setup : Setup) (whole : Json) (qualified : Text) (entry : Entries) : Prop :=
  ∃ (record : Json) (name enclosing : Text) (attributes : Entries) (c c' : Context),
    Visit setup whole record enclosing c ∧ shape record = .record name attributes
      ∧ Name.ofNamed name attributes enclosing = .ok qualified ∧ qualified ∉ c.seen
      ∧ outcome (node setup record enclosing) c = (.ok entry, c')

end Conversion

/-- What holds at every moment of a conversion, said about the names that some records will have. -/
structure Context.Closed (options : Options) (whole : Json) (names : List Text) (c : Context) :
    Prop where
  sound : c.Sound
  /-- The named types have no custom property named like a structural keyword. -/
  unambiguous : ∀ q attributes, (q, attributes) ∈ c.named → Unambiguous attributes
  /-- The entries of the definitions refer to the names. -/
  refers : ∀ q entry, (q, entry) ∈ c.definitions → KeywordsReferInto options.draft names entry
  /-- The entries of the definitions have the local names as their titles. -/
  title : ∀ q entry, (q, entry) ∈ c.definitions →
    entry.attr? "title" = some (.str (Name.localOf q))
  /-- The entries of the definitions are finished. -/
  finished : ∀ q entry, (q, entry) ∈ c.definitions →
    Conversion.Finished options whole q entry

namespace Context.Closed

variable {options : Options} {whole : Json} {names : List Text} {c : Context}

theorem empty : Closed options whole names empty where
  sound := .empty
  unambiguous := by simp [Context.empty]
  refers := by simp [Context.empty]
  title := by simp [Context.empty]
  finished := by simp [Context.empty]

/-- Where a named type is met, nothing is defined. -/
theorem of_named (h : Closed options whole names c) {c' : Context} {q : Text} {attributes : Entries}
    (hs : c'.Sound) (hn : c'.named = c.named.set q attributes) (hd : c'.definitions = c.definitions)
    (ha : Unambiguous attributes) : Closed options whole names c' where
  sound := hs
  unambiguous p es hp := by
    rw [hn] at hp
    rcases Table.mem_set_sharp (Table.sharp_of_lawful q) hp with hp | hp
    · exact h.unambiguous p es hp
    · cases hp
      exact ha
  refers := hd ▸ h.refers
  title := hd ▸ h.title
  finished := hd ▸ h.finished

/-- A record is left with its keywords. -/
theorem define (h : Closed options whole names c) {q : Text} {entry : Entries} (hq : q ∈ c.seen)
    (hr : KeywordsReferInto options.draft names entry)
    (ht : entry.attr? "title" = some (.str (Name.localOf q)))
    (hf : Conversion.Finished options whole q entry) :
    Closed options whole names (c.define q entry) := by
  have hmem : ∀ p es, (p, es) ∈ (c.define q entry).definitions →
      (p, es) ∈ c.definitions ∨ (p, es) = (q, entry) :=
    fun p es hp => Table.mem_set_sharp (Table.sharp_of_lawful q) hp
  refine ⟨h.sound.define hq entry, h.unambiguous, fun p es hp => ?_, fun p es hp => ?_,
    fun p es hp => ?_⟩
  · rcases hmem p es hp with hp | hp
    · exact h.refers p es hp
    · cases hp
      exact hr
  · rcases hmem p es hp with hp | hp
    · exact h.title p es hp
    · cases hp
      exact ht
  · rcases hmem p es hp with hp | hp
    · exact h.finished p es hp
    · cases hp
      exact hf

end Context.Closed

/-! ### What every part of a conversion keeps -/

namespace Conversion

open Context Keywords

variable {options : Options} {whole : Json} {names : List Text} {enclosing : Text} {c c' : Context}

/-- Wherever a node comes to be converted, what is made of it refers to the names, provided that all
records entered by then have one. -/
def Closes (options : Options) (whole : Json) (names : List Text) (schema : Json) : Prop :=
  ∀ enclosing c c' es, Visit options whole schema enclosing c → Closed options whole names c →
    outcome (node options schema enclosing) c = (.ok es, c') → (∀ q ∈ c'.seen, q ∈ names) →
    KeywordsReferInto options.draft names es ∧ Closed options whole names c'

theorem closed_leaf {kind : Leaf} {name : Text} {attributes es : Entries}
    (hs : objectShape attributes = .leaf kind name attributes) (ha : Unambiguous attributes)
    (hc : Closed options whole names c)
    (h : outcome (leaf options kind name attributes enclosing) c = (.ok es, c')) :
    KeywordsReferInto options.draft names es ∧ Closed options whole names c' := by
  have hsound : c'.Sound := ((evolving_leaf options hs).of_ok hc.sound h).sound
  obtain ⟨qualified, keywords, -, hk, rfl, hc'⟩ := leaf_ok h
  refine ⟨keywordsReferInto_leafKeywords ha hk, ?_⟩
  split at hc'
  · exact hc' ▸ hc
  · exact hc.of_named hsound (by rw [hc']; rfl) (by rw [hc']; rfl) ha

theorem closed_typeName {name : Text} {es : Entries} (hc : Closed options whole names c)
    (h : outcome (typeName options name enclosing) c = (.ok es, c'))
    (hnames : ∀ q ∈ c'.seen, q ∈ names) :
    KeywordsReferInto options.draft names es ∧ Closed options whole names c' := by
  rcases typeName_ok hc.sound h with ⟨p, -, rfl, rfl⟩ | ⟨q, -, hr, ⟨hq, hok⟩ | ⟨hq, hstored⟩⟩
  · exact ⟨keywordsReferInto_apply _ _ (.of_others (by simp)), hc⟩
  · obtain ⟨rfl, rfl⟩ := reference_ok hok
    exact ⟨keywordsReferInto_reference (hnames q hq), hc⟩
  · obtain ⟨kind, n, attributes, hmem, hs, hok⟩ := hstored
    exact closed_leaf hs (hc.unambiguous q attributes hmem) hc hok

theorem closed_branches {schema : Json} {members before after first rest : List Json}
    {c₀ : Context} (hv : Visit options whole schema enclosing c₀)
    (hs : shape schema = .union members) (hu : unionForm members = .choice)
    (ih : ∀ j ∈ members, Closes options whole names j) (hsplit : members = before ++ after)
    (hbefore : outcome (branches options before enclosing) c₀ = (.ok first, c))
    (hc : Closed options whole names c)
    (h : outcome (branches options after enclosing) c = (.ok rest, c'))
    (hnames : ∀ q ∈ c'.seen, q ∈ names) :
    (∀ j ∈ rest, RefersInto options.draft names j) ∧ Closed options whole names c' := by
  induction after generalizing before first rest c with
  | nil =>
    rw [branches_nil] at h
    cases h
    exact ⟨by simp, hc⟩
  | cons j js ihs =>
    rw [branches_cons] at h
    obtain ⟨es, c₁, hnode, h⟩ := bind_ok h
    obtain ⟨rest', hrest, rfl⟩ := map_ok h
    have hlater := (evolving_branches fun j _ => evolving_node j).of_ok
      ((evolving_node j enclosing).of_ok hc.sound hnode).sound hrest
    have hvisit : Visit options whole j enclosing c :=
      .branch hv (hsplit ▸ hs) (hsplit ▸ hu) hbefore
    obtain ⟨hes, hc₁⟩ := ih j (hsplit ▸ by simp) _ _ _ _ hvisit hc hnode
      fun q hq => hnames q (hlater.seen_subset hq)
    have hbefore' : outcome (branches options (before ++ [j]) enclosing) c₀ =
        (.ok (first ++ [.obj es]), c₁) := by
      rw [branches_append, outcome_bind, hbefore]
      dsimp only
      rw [outcome_map, branches_cons, outcome_bind, hnode]
      dsimp only
      rw [branches_nil]
      rfl
    obtain ⟨hrefers, hc'⟩ := ihs (by rw [hsplit, List.append_assoc]; rfl) hbefore' hc₁ hrest
    refine ⟨fun i hi => ?_, hc'⟩
    rcases List.mem_cons.1 hi with rfl | hi
    · exact hes.obj
    · exact hrefers i hi

theorem closed_union {schema : Json} {members : List Json} {es : Entries}
    (hv : Visit options whole schema enclosing c) (hs : shape schema = .union members)
    (ih : ∀ j ∈ members, Closes options whole names j) (hc : Closed options whole names c)
    (h : outcome (union options members enclosing) c = (.ok es, c'))
    (hnames : ∀ q ∈ c'.seen, q ∈ names) :
    KeywordsReferInto options.draft names es ∧ Closed options whole names c' := by
  cases hu : unionForm members with
  | fault fault =>
    rw [union_of_fault hu] at h
    cases h
  | choice =>
    rw [union_of_choice hu] at h
    obtain ⟨converted, hbranches, rfl⟩ := map_ok h
    have hnothing : outcome (branches options.setup [] enclosing) c = (.ok [], c) := by
      rw [branches_nil]
      rfl
    obtain ⟨hrefers, hc'⟩ := closed_branches hv hs hu ih rfl hnothing hc hbranches hnames
    exact ⟨keywordsReferInto_oneOf hrefers, hc'⟩
  | nullable member =>
    have hmember := ih member (mem_of_unionForm hu)
    have hvisit : Visit options whole member enclosing c := .nullable hv hs hu
    rw [union_of_nullable hu] at h
    split at h
    · exact hmember _ _ _ _ hvisit hc h hnames
    · obtain ⟨kind, c₁, hkind, hrest⟩ := bind_ok h
      obtain ⟨-, rfl⟩ := inspect_ok hkind
      split at hrest
      · cases hrest
        exact ⟨keywordsReferInto_nullableScalar _ _, hc⟩
      · obtain ⟨branch, c₂, hnode, hpure⟩ := bind_ok hrest
        cases hpure
        obtain ⟨hbranch, hc'⟩ := hmember _ _ _ _ hvisit hc hnode hnames
        refine ⟨keywordsReferInto_oneOf fun j hj => ?_, hc'⟩
        simp only [List.mem_cons, List.not_mem_nil, or_false] at hj
        rcases hj with rfl | rfl
        · exact refersInto_nullSchema
        · exact hbranch.obj

theorem closed_fields {schema : Json} {name q : Text} {attributes : Entries}
    {list before after : List Json} {made made' : Entries × List Json} {c₀ : Context}
    (hv : Visit options whole schema enclosing c₀) (hs : shape schema = .record name attributes)
    (hq : Name.ofNamed name attributes enclosing = .ok q) (hseen : q ∉ c₀.seen)
    (hl : attributes.attr? "fields" = some (.arr list))
    (ih : ∀ j, Child j schema → Closes options whole names j) (hsplit : list = before ++ after)
    (hbefore : outcome (fields options q before [] []) (c₀.enter q attributes) = (.ok made, c))
    (hc : Closed options whole names c)
    (hmade : ∀ e ∈ made.1, RefersInto options.draft names e.2)
    (h : outcome (fields options q after made.1 made.2) c = (.ok made', c'))
    (hnames : ∀ p ∈ c'.seen, p ∈ names) :
    (∀ e ∈ made'.1, RefersInto options.draft names e.2) ∧ Closed options whole names c' := by
  induction after generalizing before made c with
  | nil =>
    rw [fields_nil] at h
    cases h
    exact ⟨hmade, hc⟩
  | cons field more ihs =>
    obtain ⟨es, fieldName, type, property, nullable, added, c₁, hp, hnode, hnullable, hadded, hrest⟩ :=
      fields_cons_ok h
    have hlater := (evolving_fields (fun _ _ _ _ type _ => evolving_node type) _ _).of_ok
      ((evolving_node type _).of_ok hc.sound hnode).sound hrest
    have hvisit : Visit options whole type (Name.namespaceOf q) c :=
      .field hv hs hq hseen (hsplit ▸ hl) hbefore hp
    have hchild : Child type schema := child_of_field hs hl (hsplit ▸ by simp) hp
    obtain ⟨hproperty, hc₁⟩ := ih type hchild _ _ _ _ hvisit hc hnode
      fun p hp => hnames p (hlater.seen_subset hp)
    have hbefore' : outcome (fields options q (before ++ [field]) [] []) (c₀.enter q attributes) =
        (.ok added, c₁) := by
      rw [fields_append, outcome_bind, hbefore]
      dsimp only
      rw [fields_cons hp, outcome_bind, hnode]
      dsimp only
      rw [outcome_bind, outcome_ofExcept, hnullable]
      dsimp only
      rw [outcome_bind, outcome_ofExcept, hadded]
      dsimp only
      rw [fields_nil]
      rfl
    exact ihs (by rw [hsplit, List.append_assoc]; rfl) hbefore' hc₁
      (refersInto_addField hmade hproperty hadded) hrest

/-- A record that has been entered before is a reference; any other refers where its fields refer,
and is finished when it is left. -/
theorem closed_record {schema : Json} {name : Text} {attributes : Entries}
    (hs : shape schema = .record name attributes) (ha : Unambiguous attributes)
    (ih : ∀ j, Child j schema → Closes options whole names j) :
    Closes options whole names schema := by
  intro enclosing c c' es hv hc h hnames
  obtain ⟨q, hq, ⟨hseen, hreference⟩ | ⟨hseen, list, made, c₁, hl, hf, rfl, rfl⟩⟩ := record_ok hs h
  · obtain ⟨rfl, rfl⟩ := reference_ok hreference
    exact ⟨keywordsReferInto_reference (hnames q hseen), hc⟩
  · have hsound := hc.sound.enter (defines_of_record hs hq) hseen
    have hentered : Closed options whole names (c.enter q attributes) :=
      hc.of_named hsound rfl rfl ha
    have hnothing : outcome (fields options q [] [] []) (c.enter q attributes) =
        (.ok ([], []), c.enter q attributes) := by
      rw [fields_nil]
      rfl
    obtain ⟨hmade, hc₁⟩ := closed_fields hv hs hq hseen (fieldList_ok hl) ih rfl hnothing
      hentered (by simp) hf hnames
    have hfields : Evolving (fields options q list.1 [] []) :=
      evolving_fields (fun _ _ _ _ type _ => evolving_node type) _ _
    have hin : q ∈ c₁.seen := (hfields.of_ok hsound hf).seen_subset
      (List.mem_append_right _ List.mem_cons_self)
    have hrefers : KeywordsReferInto options.draft names
        (recordKeywords options q attributes made.1 made.2) :=
      keywordsReferInto_recordKeywords _ ha hmade
    refine ⟨hrefers, hc₁.define hin hrefers (title_recordKeywords _ ha) ?_⟩
    exact ⟨schema, name, enclosing, attributes, c, _, hv, hs, hq, hseen, h⟩

/-- **Every node keeps the invariant**, and refers to records that have been entered. -/
theorem closed_node (hwhole : ∀ attributes, Below (.obj attributes) whole → Unambiguous attributes)
    (schema : Json) : Closes options whole names schema := by
  induction schema using Schema.induction with
  | step schema ih =>
    intro enclosing c c' es hv hc h hnames
    have hobject : ∀ attributes, schema = .obj attributes → Unambiguous attributes := by
      intro attributes he
      exact hwhole attributes (he ▸ hv.stands_below)
    cases hs : shape schema with
    | malformed fault =>
      rw [node_of_malformed hs] at h
      cases h
    | union members =>
      rw [node_of_union hs] at h
      exact closed_union hv hs (fun j hj => ih j (.member hs hj)) hc h hnames
    | name name =>
      rw [node_of_name hs] at h
      exact closed_typeName hc h hnames
    | wrapper inner =>
      rw [node_of_wrapper hs] at h
      exact ih inner (.inner hs) _ _ _ _ (.inner hv hs) hc h hnames
    | primitive p attributes =>
      obtain ⟨_, rfl, rfl⟩ := fits_of_shape hs (by simp) (by simp) (by simp)
      rw [node_of_primitive hs] at h
      cases h
      exact ⟨keywordsReferInto_annotate (hobject _ rfl)
        (keywordsReferInto_apply _ _ keywordsReferInto_ofLogicalType), hc⟩
    | leaf kind name attributes =>
      obtain ⟨_, rfl, rfl⟩ := fits_of_shape hs (by simp) (by simp) (by simp)
      rw [node_of_leaf hs] at h
      exact closed_leaf hs (hobject _ rfl) hc h
    | array items attributes =>
      obtain ⟨_, rfl, rfl, -⟩ := fits_of_shape hs (by simp) (by simp) (by simp)
      rw [node_of_array hs] at h
      obtain ⟨inner, hi, rfl⟩ := map_ok h
      obtain ⟨hinner, hc'⟩ := ih items (.items hs) _ _ _ _ (.items hv hs) hc hi hnames
      exact ⟨keywordsReferInto_arrayKeywords (hobject _ rfl) hinner, hc'⟩
    | map values attributes =>
      obtain ⟨_, rfl, rfl, -⟩ := fits_of_shape hs (by simp) (by simp) (by simp)
      rw [node_of_map hs] at h
      obtain ⟨inner, hi, rfl⟩ := map_ok h
      obtain ⟨hinner, hc'⟩ := ih values (.values hs) _ _ _ _ (.values hv hs) hc hi hnames
      exact ⟨keywordsReferInto_mapKeywords (hobject _ rfl) hinner, hc'⟩
    | reference name attributes =>
      obtain ⟨_, rfl, rfl⟩ := fits_of_shape hs (by simp) (by simp) (by simp)
      rw [node_of_reference hs] at h
      obtain ⟨target, ht, rfl⟩ := map_ok h
      obtain ⟨htarget, hc'⟩ := closed_typeName hc ht hnames
      exact ⟨keywordsReferInto_referenceKeywords (hobject _ rfl) htarget, hc'⟩
    | record name attributes =>
      exact closed_record hs (hobject _ (eq_obj_of_record hs)) ih _ _ _ _ hv hc h hnames

end Conversion

namespace Document

open Conversion Context

variable {options : Options} {c : Context}

/-- The definitions table stands under the keyword of the draft if anything is defined. -/
theorem definitions_header {q : Text} (h : q ∈ c.definitions.keys) :
    (header options.draft c).attr? options.draft.definitionsKeyword =
      some (definitionsTable c) := by
  have hsome : c.definitions.isEmpty = false := by
    cases hd : c.definitions with
    | nil =>
      rw [hd] at h
      cases h
    | cons e es => rfl
  have hother : (Key.text "$schema" == .text options.draft.definitionsKeyword) = false := by
    cases options.draft <;> decide
  have hsame : (Key.text options.draft.definitionsKeyword
      == .text options.draft.definitionsKeyword) = true :=
    (Key.sharp_text _).beq_self
  simp only [header, hsome, Entries.attr?, Table.get?, hother, hsame, if_true, if_false,
    Bool.false_eq_true]

/-- The definitions table stands there in the whole document too: no keyword takes its place. -/
theorem definitions_merge {names : List Text} {keywords : Entries} {q : Text}
    (hk : KeywordsReferInto options.draft names keywords) (hq : q ∈ c.definitions.keys) :
    Entries.attr? options.draft.definitionsKeyword ((header options.draft c).merge keywords) =
      some (definitionsTable c) := by
  have hother : ∀ e ∈ keywords, e.1 ≠ Key.text options.draft.definitionsKeyword := by
    intro e he
    exact (hk e he).2 _ (by cases options.draft <;> decide)
  exact (Table.get?_merge_of_absent (Key.sharp_text _) hother).trans (definitions_header hq)

/-- A name is found in the definitions table as it is among the definitions. -/
theorem attr?_definitionsTable (definitions : Table Text Entries) (q : Text) :
    Entries.attr? q (definitions.map fun e => (.text e.1, .obj e.2)) =
      (definitions.get? q).map .obj := by
  induction definitions with
  | nil => rfl
  | cons e es ih =>
    by_cases hq : e.1 = q
    · have hkey : (Key.text e.1 == .text q) = true := hq ▸ (Key.sharp_text _).beq_self
      have hname : (e.1 == q) = true := beq_iff_eq.2 hq
      simp only [List.map_cons, Entries.attr?, Table.get?, hkey, hname, if_true, Option.map_some]
    · have hkey : ¬(Key.text e.1 == .text q) = true :=
        fun hk => hq (Key.text.inj ((Key.sharp_text q _).1.1 hk))
      have hname : ¬(e.1 == q) = true := by simpa using hq
      simp only [List.map_cons, Entries.attr?, Table.get?, hkey, hname, Bool.false_eq_true,
        if_false]
      exact ih

/-- A definition is found in the document, where no keyword takes the place of the definitions
table. -/
theorem definition_found {names : List Text} {keywords entry : Entries} {q : Text}
    (hk : KeywordsReferInto options.draft names keywords)
    (hq : c.definitions.get? q = some entry) :
    ∃ table, Entries.attr? options.draft.definitionsKeyword
        ((header options.draft c).merge keywords) = some (.obj table)
      ∧ Entries.attr? q table = some (.obj entry) := by
  have hmem := Table.mem_of_get?_eq_some (Table.sharp_of_lawful q) hq
  refine ⟨_, definitions_merge hk (Table.mem_keys_of_mem hmem), ?_⟩
  rw [attr?_definitionsTable, hq]
  rfl

/-- The header refers where the definitions refer. -/
theorem refersInto_header {names : List Text} {whole : Json} (h : Closed options whole names c) :
    ∀ e ∈ header options.draft c, EntryRefersInto options.draft names e := by
  intro e he
  simp only [header, List.mem_cons] at he
  rcases he with rfl | he
  · exact entryRefersInto_of_other rfl
  · split at he
    · cases he
    · rw [List.mem_singleton.1 he]
      refine entryRefersInto_table (by cases options.draft <;> decide) fun e he => ?_
      obtain ⟨d, hd, rfl⟩ := List.mem_map.1 he
      exact KeywordsReferInto.obj (h.refers d.1 d.2 hd)

/-- **No reference dangles.**  If no object of a schema has a custom property named like a structural
keyword, every reference at any schema position of its document is one of the draft to a full name;
that name stands in the definitions table under the draft's keyword, and its entry is what the
conversion of the record of that full name has made, with the local name as its title.  If the name
holds no mark of a pointer, the reference as a pointer has two tokens and leads to the entry. -/
theorem references_resolve (options : Options) (schema document : Json)
    (hschema : ∀ attributes, Below (.obj attributes) schema → Unambiguous attributes)
    (hdocument : ofSchema options schema = .ok document) :
    ∃ root : Entries, document = .obj root ∧
      ∀ (entries : Entries) (r : Json), SchemaAt (.obj entries) document →
        (Key.text "$ref", r) ∈ entries →
        ∃ (q : Text) (table entry : Entries), r = .str (options.draft.referenceRoot ++ q)
          ∧ root.attr? options.draft.definitionsKeyword = some (.obj table)
          ∧ table.attr? q = some (.obj entry)
          ∧ Finished options schema q entry
          ∧ entry.attr? "title" = some (.str (Name.localOf q))
          ∧ (Pointer.Unmarked q →
              Pointer.tokens (options.draft.referenceRoot ++ q)
                  = some [options.draft.definitionsKeyword, q]
                ∧ Pointer.resolve document (options.draft.referenceRoot ++ q)
                  = some (.obj entry)) := by
  obtain ⟨keywords, c, hrun, rfl⟩ := ofSchema_ok hdocument
  have hnode : outcome (node options schema []) Context.empty = (.ok keywords, c) := hrun
  have hevolves := (evolving_node schema []).of_ok .empty hnode
  obtain ⟨hkeywords, hclosed⟩ := closed_node hschema schema _ _ _ _ .whole .empty hnode
    fun q hq => hq
  refine ⟨_, rfl, fun entries r hat hr => ?_⟩
  have hrefers : RefersInto options.draft c.seen (.obj ((header options.draft c).merge keywords)) :=
    refersInto_obj (Table.forall_mem_merge respects_entryRefersInto (refersInto_header hclosed)
      fun e he => (hkeywords e he).1)
  obtain ⟨q, hseen, rfl⟩ := hrefers entries r hat hr
  have hkey : q ∈ c.definitions.keys :=
    (hevolves.defined_of_seen hseen).resolve_left (by simp [Context.empty])
  have hhas := (Table.has_iff_mem_keys (Table.sharp_of_lawful q)).2 hkey
  obtain ⟨entry, hentry⟩ := Option.isSome_iff_exists.1 hhas
  have hmem := Table.mem_of_get?_eq_some (Table.sharp_of_lawful q) hentry
  obtain ⟨table, htable, hfound⟩ := definition_found hkeywords hentry
  refine ⟨q, _, entry, rfl, htable, hfound, hclosed.finished q entry hmem,
    hclosed.title q entry hmem, fun hq => ?_⟩
  exact ⟨Pointer.tokens_reference options.draft hq, Pointer.resolve_reference hq htable hfound⟩

/-- A list whose elements are linked by name. -/
def linkedList : Json :=
  .obj [(.text "type", "record"), (.text "name", "Node"),
    (.text "fields", .arr [.obj [(.text "name", "next"), (.text "type", .arr ["null", "Node"])]])]

/-- The one object that stands in the list as a node is the record. -/
theorem linkedList_of_below {attributes : Entries} (h : Below (.obj attributes) linkedList) :
    linkedList = .obj attributes := by
  have hs : ∃ es, linkedList = .obj es ∧ shape linkedList = .record "Node" es := ⟨_, rfl, rfl⟩
  obtain ⟨es, hes, hs⟩ := hs
  rcases below_record hs h with hself | ⟨list, field, i, hl, hf, ht, hb⟩
  · exact hself.symm
  · cases hes
    cases hl
    cases List.mem_singleton.1 hf
    cases ht
    rcases below_arr hb with hc | ⟨member, hm, hb⟩
    · cases hc
    · simp only [List.mem_cons, List.not_mem_nil, or_false] at hm
      rcases hm with rfl | rfl
      · cases below_str hb
      · cases below_str hb

theorem references_resolve_linkedList :
    ∃ (document : Json) (root : Entries), ofSchema Options.strict linkedList = .ok document
      ∧ document = .obj root
      ∧ ∀ (entries : Entries) (r : Json), SchemaAt (.obj entries) document →
        (Key.text "$ref", r) ∈ entries →
        ∃ (q : Text) (table entry : Entries), r = .str (Text.ofString "#/definitions/" ++ q)
          ∧ root.attr? "definitions" = some (.obj table)
          ∧ table.attr? q = some (.obj entry) := by
  have hunambiguous : ∀ attributes, Below (.obj attributes) linkedList → Unambiguous attributes := by
    intro attributes h e he
    cases linkedList_of_below h
    cases he
  have hok : (ofSchema Options.strict linkedList).toBool = true := by decide +kernel
  cases hd : ofSchema Options.strict linkedList with
  | error fault =>
    rw [hd] at hok
    cases hok
  | ok document =>
    obtain ⟨root, hroot, hrefs⟩ :=
      references_resolve Options.strict linkedList document hunambiguous hd
    refine ⟨document, root, rfl, hroot, fun entries r hat hr => ?_⟩
    obtain ⟨q, table, entry, he, ht, hq, -⟩ := hrefs entries r hat hr
    exact ⟨q, table, entry, he, ht, hq⟩

end Document

end AvroJsonSchema
