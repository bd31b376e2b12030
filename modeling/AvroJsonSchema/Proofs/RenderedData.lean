import AvroJsonSchema.Proofs.Rendering

/-!
# Data against rendered types

Every datum of a type is accepted by the keywords that write the type, and a value of another family
is rejected by them.  The second is what makes the first go through for unions: a choice accepts what
one branch accepts and all others reject.  References are followed wherever they lead, as long as the
records they name are written there.

* **`JsonSchema.Resolves`**: references lead to the records that they name.
* **`Renders.rejects`**: a value of another family is rejected.
* **`Renders.accepts`**: every datum is accepted.
-/

namespace AvroJsonSchema

open Table JsonSchema AvroType

/-- The family of the values of a type of JSON Schema. -/
def SchemaType.family : SchemaType → Family
  | .string => .textual
  | .integer => .numeric
  | .number => .numeric
  | .boolean => .boolean
  | .null => .null
  | .object => .object
  | .array => .array

theorem SchemaType.family_of_holds {type : SchemaType} {v : Json} (h : type.holds v = true) :
    type.family = v.family := by
  cases type <;> cases v <;> first | rfl | cases h

theorem Primitive.family_schemaType (p : Primitive) : p.schemaType.family = p.family := by
  cases p <;> rfl

/-- A datum of a primitive type has the type of JSON Schema that the primitive type is written as. -/
theorem Datum.holds {whole : AvroType} {p : Primitive} {v : Json}
    (h : Datum whole (.primitive p) v) : p.schemaType.holds v = true := by
  cases h with
  | null => rfl
  | boolean b => rfl
  | int n hp => cases p <;> first | rfl | cases hp
  | float hp hx => rcases hp with rfl | rfl <;> exact hx
  | text s hp => cases p <;> first | rfl | cases hp

theorem Datum.eq_null {whole : AvroType} {v : Json} (h : Datum whole (.primitive .null) v) :
    v = .null := by
  cases h with
  | null => rfl
  | int n hp => cases hp
  | float hp _ => rcases hp with hp | hp <;> cases hp
  | text s hp => cases hp

namespace JsonSchema

/-- References lead to the records that they name: every record in a type is written where its full
name leads, and every reference in it names such a record. -/
structure Resolves (options : Options) (resolve : Text → Option Json) (whole : AvroType) : Prop where
  record : ∀ name fields, Within (.record name fields) whole →
    ∃ keywords, resolve (options.draft.referenceRoot ++ name) = some (.obj keywords)
      ∧ Renders options (.record name fields) keywords
  reference : ∀ name, Within (.reference name) whole → ∃ fields, Within (.record name fields) whole

variable {draft : Draft} {resolve : Text → Option Json} {keywords : Json.Entries} {v : Json}

theorem accepts_typed {type : SchemaType} (he : essential keywords = [typeEntry type])
    (h : type.holds v = true) : Accepts draft resolve (.obj keywords) v := by
  rw [← accepts_essential, he]
  refine accepts_of_passes rfl fun e hmem => ?_
  rw [List.mem_singleton.1 hmem]
  exact ⟨.type, rfl, passes_type h⟩

theorem rejects_typed {type : SchemaType} (href : (essential keywords).attr? "$ref" = none)
    (ht : typeEntry type ∈ essential keywords) (h : type.family ≠ v.family) :
    Rejects draft resolve (.obj keywords) v := by
  rw [← rejects_essential]
  refine rejects_of_type href ht ?_
  cases hh : type.holds v with
  | false => rfl
  | true => exact absurd (SchemaType.family_of_holds hh) h

/-- Null alone is accepted by the schema of null. -/
theorem accepts_nullSchema : Accepts draft resolve Keywords.nullSchema .null := by
  have he : essential [typeEntry .null] = [typeEntry .null] := rfl
  exact accepts_typed he rfl

theorem rejects_nullSchema (h : v.family ≠ .null) :
    Rejects draft resolve Keywords.nullSchema v := by
  have ht : typeEntry .null ∈ essential [typeEntry .null] := List.mem_cons_self
  exact rejects_typed rfl ht (Ne.symm h)

theorem recordCore_attr?_reference (options : Options) (properties : Json.Entries)
    (required : List Json) : (recordCore options properties required).attr? "$ref" = none := by
  unfold recordCore
  split <;> split <;> rfl

end JsonSchema

namespace Renders

variable {options : Options} {resolve : Text → Option Json} {whole t : AvroType}
  {keywords : Json.Entries} {v : Json}

theorem rejects_record {name : Text} {fields : List (Json.Key × AvroType)}
    (h : Renders options (.record name fields) keywords) (hv : v.family ≠ .object) :
    Rejects options.draft resolve (.obj keywords) v := by
  cases h with
  | record hlist hrequired he =>
    have hfamily : SchemaType.object.family ≠ v.family := Ne.symm hv
    refine rejects_typed ?_ ?_ hfamily
    · rw [he]
      exact recordCore_attr?_reference _ _ _
    · rw [he]
      exact List.mem_cons_self

/-- **A value of another family is rejected** by the keywords of a type that is no union. -/
theorem rejects (hresolve : Resolves options resolve whole) (ht : Within t whole)
    (h : Renders options t keywords) (hunion : t.family? ≠ none) (hv : t.family? ≠ some v.family) :
    Rejects options.draft resolve (.obj keywords) v := by
  have htyped : ∀ type : SchemaType, t.family? = some type.family →
      (essential keywords).attr? "$ref" = none → typeEntry type ∈ essential keywords →
      Rejects options.draft resolve (.obj keywords) v := by
    intro type hf href hmem
    exact rejects_typed href hmem fun hc => hv (hc ▸ hf)
  cases h with
  | primitive he =>
    rename_i p
    exact htyped p.schemaType (by rw [p.family_schemaType]; rfl) (by rw [he]; rfl) (by simp [he])
  | array hi he => exact htyped .array rfl (by rw [he]; rfl) (by simp [he, arrayCore])
  | map hi he => exact htyped .object rfl (by rw [he]; rfl) (by simp [he, mapCore])
  | choice hb he => exact absurd rfl hunion
  | nullablePrimitive hm he => exact absurd rfl hunion
  | nullable hm hin hf hi he => exact absurd rfl hunion
  | record hlist hrequired he =>
    refine htyped .object rfl ?_ ?_
    · rw [he]
      exact recordCore_attr?_reference _ _ _
    · rw [he]
      exact List.mem_cons_self
  | enum hs he => exact htyped .string rfl (by rw [he]; rfl) (by simp [he, enumCore])
  | fixed he => exact htyped .string rfl (by rw [he]; rfl) (by simp [he])
  | reference he =>
    rename_i name
    obtain ⟨fields, hrecord⟩ := hresolve.reference name ht
    obtain ⟨target, hr, htarget⟩ := hresolve.record name fields hrecord
    rw [← rejects_essential, he]
    exact rejects_reference hr (rejects_record htarget fun hc => hv (hc ▸ rfl))

/-! ### Acceptance by each type -/

theorem accepts_pair {p : Primitive} (he : essential keywords = pairCore p)
    (h : v = .null ∨ p.schemaType.holds v = true) :
    Accepts options.draft resolve (.obj keywords) v := by
  rw [← accepts_essential, he]
  refine accepts_of_passes rfl fun e hmem => ?_
  rw [List.mem_singleton.1 hmem]
  refine ⟨.type, rfl, 0, fun bound _ => ?_⟩
  have hnull : typeOf? "null" = some .null := by decide
  have htype : typeOf? (.str p.schemaType.text) = some p.schemaType := by
    cases p <;> decide
  have hany : [SchemaType.null, p.schemaType].any (·.holds v) = true := by
    rcases h with rfl | h
    · rfl
    · simp [h]
  simp only [judgeAssertion, List.mapM_cons, List.mapM_nil, hnull, htype]
  exact congrArg some hany

theorem accepts_array {inner : Json.Entries} {items : List Json}
    (he : essential keywords = arrayCore inner)
    (h : ∀ v ∈ items, Accepts options.draft resolve (.obj inner) v) :
    Accepts options.draft resolve (.obj keywords) (.arr items) := by
  rw [← accepts_essential, he]
  refine accepts_of_passes rfl fun e hmem => ?_
  simp only [arrayCore, List.mem_cons, List.not_mem_nil, or_false] at hmem
  rcases hmem with rfl | rfl
  · exact ⟨.type, rfl, passes_type rfl⟩
  · exact ⟨.items, rfl, passes_items h⟩

theorem accepts_map {inner entries : Json.Entries} (he : essential keywords = mapCore inner)
    (h : ∀ e ∈ entries, Accepts options.draft resolve (.obj inner) e.2) :
    Accepts options.draft resolve (.obj keywords) (.obj entries) := by
  rw [← accepts_essential, he]
  refine accepts_of_passes rfl fun e hmem => ?_
  simp only [mapCore, List.mem_cons, List.not_mem_nil, or_false] at hmem
  rcases hmem with rfl | rfl
  · exact ⟨.type, rfl, passes_type rfl⟩
  · exact ⟨.additionalProperties, rfl, passes_additionalProperties fun e he _ => h e he⟩

theorem accepts_enum {symbols : List Json} {t : Text} (he : essential keywords = enumCore symbols)
    (hs : symbols.all Keywords.symbols?.isText = true) (h : .str t ∈ symbols) :
    Accepts options.draft resolve (.obj keywords) (.str t) := by
  rw [← accepts_essential, he]
  refine accepts_of_passes rfl fun e hmem => ?_
  simp only [enumCore, List.mem_cons, List.not_mem_nil, or_false] at hmem
  rcases hmem with rfl | rfl
  · exact ⟨.type, rfl, passes_type rfl⟩
  · refine ⟨.enum, rfl, 0, fun bound _ => ?_⟩
    have hsymbol : isSymbol symbols (.str t) = true := by
      refine List.any_eq_true.2 ⟨_, h, ?_⟩
      simp
    simp only [judgeAssertion, hs, if_true, hsymbol]

theorem accepts_choice {before after : List Json} {schema : Json}
    (he : essential keywords = choiceCore (before ++ schema :: after))
    (h : Accepts options.draft resolve schema v)
    (hothers : ∀ j ∈ before ++ after, Rejects options.draft resolve j v) :
    Accepts options.draft resolve (.obj keywords) v := by
  rw [← accepts_essential, he]
  refine accepts_of_passes rfl fun e hmem => ?_
  rw [List.mem_singleton.1 hmem]
  exact ⟨.oneOf, rfl, passes_oneOf h hothers⟩

/-- An object is accepted by the keywords of a record if each of its properties is one of the fields
and accepted as such, and every required field is there. -/
theorem accepts_record {list : List Property} {required : List Json} {entries : Json.Entries}
    (he : essential keywords = recordCore options (list.map Property.entry) required)
    (hproperties : ∀ e ∈ entries, ∃ schema, get? e.1 (list.map Property.entry) = some schema
      ∧ Accepts options.draft resolve schema e.2)
    (hrequired : ∀ n ∈ required, isPresent entries n = true) :
    Accepts options.draft resolve (.obj keywords) (.obj entries) := by
  rw [← accepts_essential, he]
  have hfound : ∀ e ∈ entries,
      (properties (recordCore options (list.map Property.entry) required)).has e.1 = true := by
    intro e hmem
    obtain ⟨schema, hs, -⟩ := hproperties e hmem
    show (get? e.1 (list.map Property.entry)).isSome = true
    rw [hs]
    rfl
  refine accepts_of_passes (recordCore_attr?_reference _ _ _) fun e hmem => ?_
  simp only [recordCore, List.mem_cons, List.mem_append] at hmem
  rcases hmem with rfl | rfl | hmem | hmem
  · exact ⟨.type, rfl, passes_type rfl⟩
  · refine ⟨.properties, rfl, passes_properties fun e hmem schema hs => ?_⟩
    obtain ⟨schema', hs', haccepts⟩ := hproperties e hmem
    rw [hs] at hs'
    cases hs'
    exact haccepts
  · split at hmem
    · cases hmem
    · rw [List.mem_singleton.1 hmem]
      exact ⟨.required, rfl, passes_required hrequired⟩
  · split at hmem
    · rw [List.mem_singleton.1 hmem]
      refine ⟨.additionalProperties, rfl, passes_additionalProperties fun e hmem hh => ?_⟩
      rw [hfound e hmem] at hh
      cases hh
    · cases hmem

/-- An object whose keys are fields is accepted by the keywords of a record whose fields have different
names, if no field that does not admit null is left out and every field is accepted. -/
theorem accepts_fields {name : Text} {list : List Property} {required : List Json}
    {entries : Json.Entries}
    (he : essential keywords = recordCore options (list.map Property.entry) required)
    (hdistinct : (AvroType.record name (list.map Property.field)).Distinct)
    (hkeys : entries.TextKeyed)
    (hfields : ∀ e ∈ entries, ∃ t, (e.1, t) ∈ list.map Property.field)
    (hpresent : ∀ f ∈ list.map Property.field, f.1 ∈ entries.keys ∨ f.2.AdmitsNull)
    (hrequired : ∀ n ∈ required, ∃ p ∈ list, n = Json.ofKey p.key ∧ ¬p.type.AdmitsNull)
    (h : ∀ p ∈ list, ∀ v, (p.key, v) ∈ entries →
      Accepts options.draft resolve (.obj p.keywords) v) :
    Accepts options.draft resolve (.obj keywords) (.obj entries) := by
  obtain ⟨htexts, hnodup⟩ := hdistinct
  have hentries : (keys (list.map Property.entry)).Nodup := by
    rw [List.map_map] at hnodup
    rw [keys, List.map_map]
    exact hnodup
  refine accepts_record he (fun e hmem => ?_) fun n hn => ?_
  · obtain ⟨t, hfield⟩ := hfields e hmem
    obtain ⟨p, hp, hpe⟩ := List.mem_map.1 hfield
    have hkey : p.key = e.1 := congrArg Prod.fst hpe
    obtain ⟨k, hk⟩ := hkeys.1 e hmem
    have hentry : (e.1, .obj p.keywords) ∈ list.map Property.entry :=
      List.mem_map.2 ⟨p, hp, by rw [Property.entry, hkey]⟩
    refine ⟨_, get?_of_mem (hk ▸ Json.Key.sharp_text k) hentries hentry, ?_⟩
    exact h p hp e.2 (hkey ▸ hmem)
  · obtain ⟨p, hp, rfl, hnull⟩ := hrequired n hn
    have hfield : p.field ∈ list.map Property.field := List.mem_map.2 ⟨p, hp, rfl⟩
    have hthere : p.key ∈ entries.keys := (hpresent p.field hfield).resolve_right hnull
    obtain ⟨k, hk⟩ := htexts p.field hfield
    have hk' : p.key = .text k := hk
    rw [hk'] at hthere ⊢
    exact (has_iff_mem_keys (Json.Key.sharp_text k)).2 hthere

/-- A datum of a member of a union is accepted by the keywords of the union if it is accepted by those
of the member. -/
theorem accepts_union (hresolve : Resolves options resolve whole) {members : List AvroType}
    (hdistinct : (AvroType.union members).Distinct) (hwithin : ∀ s ∈ members, Within s whole)
    (hmem : t ∈ members) (hd : Datum whole t v)
    (ih : ∀ keywords, Renders options t keywords → Accepts options.draft resolve (.obj keywords) v)
    (hr : Renders options (.union members) keywords) :
    Accepts options.draft resolve (.obj keywords) v := by
  obtain ⟨hunions, hfamilies⟩ := hdistinct
  have hfamily : t.family? = some v.family := hd.family (hunions t hmem)
  cases hr with
  | choice hb he =>
    obtain ⟨b, hbranch, rfl⟩ := List.mem_map.1 hmem
    obtain ⟨before, after, rfl⟩ := List.append_of_mem hbranch
    rw [List.map_append, List.map_cons] at he
    refine accepts_choice he (ih b.2 (hb b hbranch)) fun j hj => ?_
    rw [← List.map_append] at hj
    obtain ⟨b', hb', rfl⟩ := List.mem_map.1 hj
    have hother : b' ∈ before ++ b :: after := by
      rcases List.mem_append.1 hb' with h | h
      · exact List.mem_append_left _ h
      · exact List.mem_append_right _ (List.mem_cons_of_mem _ h)
    have hne : b'.1.family? ≠ b.1.family? := by
      rw [List.map_append, List.map_cons] at hfamilies
      obtain ⟨-, hrest, hcross⟩ := List.pairwise_append.1 hfamilies
      rcases List.mem_append.1 hb' with h | h
      · exact hcross _ (List.mem_map.2 ⟨b', h, rfl⟩) _ List.mem_cons_self
      · exact ((List.pairwise_cons.1 hrest).1 _ (List.mem_map.2 ⟨b', h, rfl⟩)).symm
    have hmember : b'.1 ∈ (before ++ b :: after).map Prod.fst := List.mem_map.2 ⟨b', hother, rfl⟩
    exact rejects hresolve (hwithin _ hmember) (hb b' hother) (hunions _ hmember)
      fun hc => hne (hc.trans hfamily.symm)
  | nullablePrimitive hm he =>
    refine accepts_pair he ?_
    rcases hm t hmem with rfl | rfl
    · exact .inr hd.holds
    · exact .inl hd.eq_null
  | nullable hm hin hf hi he =>
    rename_i s inner
    rcases hm t hmem with rfl | rfl
    · have hnull : v.family ≠ .null := fun hc => hf (hc ▸ hfamily)
      have hlast : essential keywords = choiceCore ([Keywords.nullSchema] ++ .obj inner :: []) := he
      refine accepts_choice hlast (ih inner hi) fun j hj => ?_
      rw [List.mem_singleton.1 hj]
      exact rejects_nullSchema hnull
    · rw [hd.eq_null]
      have hfirst : essential keywords = choiceCore ([] ++ Keywords.nullSchema :: [.obj inner]) := he
      refine accepts_choice hfirst accepts_nullSchema fun j hj => ?_
      rw [List.mem_singleton.1 hj]
      exact rejects hresolve (hwithin s hin) hi (hunions s hin) hf

/-- **Every datum is accepted** by the keywords of its type, in a type that tells fields and members
apart and whose references are resolved. -/
theorem accepts (hresolve : Resolves options resolve whole) (hwhole : whole.Distinguishable)
    (h : Datum whole t v) (ht : Within t whole) (hr : Renders options t keywords) :
    Accepts options.draft resolve (.obj keywords) v := by
  have hprimitive : ∀ p v, Datum whole (.primitive p) v →
      ∀ keywords, Renders options (.primitive p) keywords →
      Accepts options.draft resolve (.obj keywords) v := by
    intro p v hd keywords hr
    cases hr with
    | primitive he => exact accepts_typed he hd.holds
  induction h generalizing keywords with
  | null => exact hprimitive _ _ .null _ hr
  | boolean b => exact hprimitive _ _ (.boolean b) _ hr
  | int n hp => exact hprimitive _ _ (.int n hp) _ hr
  | float hp hx => exact hprimitive _ _ (.float hp hx) _ hr
  | text s hp => exact hprimitive _ _ (.text s hp) _ hr
  | array _ ih =>
    cases hr with
    | array hi he => exact accepts_array he fun v hv => ih v hv (.trans (.items (.self _)) ht) hi
  | map _ _ ih =>
    cases hr with
    | map hi he => exact accepts_map he fun e hmem => ih e hmem (.trans (.values (.self _)) ht) hi
  | union hmem hd ih =>
    have hmembers : ∀ s ∈ _, Within s whole := fun s hs => .trans (.member hs (.self s)) ht
    exact accepts_union hresolve (hwhole _ ht) hmembers hmem hd
      (fun keywords hr => ih (hmembers _ hmem) hr) hr
  | record hkeys hfields hdata hpresent ih =>
    rename_i entries
    cases hr with
    | record hlist hrequired he =>
      rename_i list required
      refine accepts_fields he (hwhole _ ht) hkeys hfields hpresent hrequired fun p hp v hv => ?_
      have hfield : (p.key, p.type) ∈ list.map Property.field := List.mem_map.2 ⟨p, hp, rfl⟩
      exact ih _ _ _ hfield hv (.trans (.field hfield (.self _)) ht) (hlist p hp)
  | symbol hmem =>
    cases hr with
    | enum hs he => exact accepts_enum he hs hmem
  | fixed s =>
    cases hr with
    | fixed he => exact accepts_typed he rfl
  | reference hrecord _ ih =>
    cases hr with
    | reference he =>
      obtain ⟨target, htarget, hrenders⟩ := hresolve.record _ _ hrecord
      rw [← accepts_essential, he]
      exact accepts_reference htarget (ih hrecord hrenders)

end Renders

end AvroJsonSchema
