import AvroJsonSchema.Proofs.Lookalikes
import AvroJsonSchema.Proofs.Spelling
import AvroJsonSchema.Proofs.StoredTypes

/-!
# Types without definitions

A type in which no record, enum or fixed type is defined may hold their names, and the name of an enum
or of a fixed type is converted as the stored definition is, which is then stored again.  It is stored
as it was, so the type leaves the context alone, whether it is converted or not.  Two such types that
are converted one after the other might as well change places.

* **`Schema.FreeOfDefinitions`**: no type is defined in a schema.  **`Conversion.still_node`**: such a
  schema leaves the context alone.
* **`Conversion.Exchanged`**: how the fields of a record end in two orders.
* **`Conversion.exchanged_properties`**, **`Conversion.exchanged_record`**: two fields next to each other
  may change places.
* **`Session.definition_free`**: both for sessions.
-/

namespace AvroJsonSchema

open Schema Step

namespace Schema

/-- No object to which a walk through a schema goes is a record, an error, an enum or a fixed type. -/
def FreeOfDefinitions (schema : Json) : Prop :=
  ∀ attributes : Json.Entries, Below (.obj attributes) schema →
    ∀ c ∈ definingTypes, attributes.attr? "type" ≠ some (.str c.text)

theorem FreeOfDefinitions.child {schema j : Json} (h : FreeOfDefinitions schema) (hj : Child j schema) :
    FreeOfDefinitions j :=
  fun attributes hb => h attributes (.child hj hb)

theorem free_of_str (t : Text) : FreeOfDefinitions (.str t) := by
  intro attributes hb
  cases below_str hb

theorem free_of_arr {members : List Json} (h : ∀ j ∈ members, FreeOfDefinitions j) :
    FreeOfDefinitions (.arr members) := by
  intro attributes hb
  rcases below_arr hb with he | ⟨j, hj, hb⟩
  · cases he
  · exact h j hj attributes hb

/-- The type of a field is free of definitions. -/
def DefinesNothing (field : Json) : Prop :=
  ∃ (attributes : Json.Entries) (type : Json),
    field = .obj attributes ∧ attributes.attr? "type" = some type ∧ FreeOfDefinitions type

end Schema

namespace Conversion

variable {setup : Setup} {enclosing : Text}

/-! ### Types without definitions leave the context alone -/

/-- **A type without definitions leaves the context as it is**, whether it is converted or fails. -/
theorem still_node (setup : Setup) {schema : Json} (h : FreeOfDefinitions schema) (enclosing : Text) :
    Still (node setup schema enclosing) := by
  refine Still.compositional.node (fun _ _ h hj => h.child hj) still_typeName
    (fun kind name attributes _ h hs => ?_) (fun schema name attributes h hs _ _ => ?_) schema h enclosing
  · have hdefines : kind.complex ∈ definingTypes := by cases kind <;> decide
    exact absurd (objectShape_leaf hs).2.2 (h attributes (.self _) kind.complex hdefines)
  · obtain ⟨rfl, -, hr | hr⟩ := isRecord_of_shape hs
    · exact absurd hr (h attributes (.self _) .record (by decide))
    · exact absurd hr (h attributes (.self _) .error (by decide))

theorem still_property (record : Text) {field : Json} (h : DefinesNothing field) :
    Still (property setup record field) := by
  obtain ⟨attributes, type, rfl, ht, hfree⟩ := h
  unfold property
  cases hp : fieldParts record (.obj attributes) with
  | error fault => exact .ofExcept (.error fault)
  | ok parts =>
    obtain ⟨es, name, inner⟩ := parts
    obtain ⟨he, -, ht'⟩ := fieldParts_ok hp
    cases he
    cases ht.symm.trans ht'
    exact (still_node setup hfree _).bind fun _ => (Still.ofExcept _).bind fun _ => .ofExcept _

/-! ### Two fields that change places -/

/-- The keywords of a record around the properties of its fields. -/
def recordOf (options : Options) (qualified : Text) (attributes : Json.Entries)
    (made : List FieldProperty) : Json.Entries :=
  recordKeywords options qualified attributes (addProperties [] [] made).1 (addProperties [] [] made).2

/-- How the fields of a record are converted in a context, and how they are if the two between `before`
and `after` change places. -/
inductive Exchanged (setup : Setup) (record : Text) (before : List Json) (f g : Json)
    (after : List Json) (start : Context) :
    Except Fault (List FieldProperty) → Except Fault (List FieldProperty) → Prop
  /-- All fields are converted.  The properties of the two fields are what they are in the context
  after the fields before them, and the fields after them find the same context. -/
  | properties {first rest : List FieldProperty} {pf pg : FieldProperty} {c c' : Context} :
      outcome (properties setup record before) start = (.ok first, c) →
      outcome (property setup record f) c = (.ok pf, c) →
      outcome (property setup record g) c = (.ok pg, c) →
      outcome (properties setup record after) c = (.ok rest, c') →
      Exchanged setup record before f g after start (.ok (first ++ pf :: pg :: rest))
        (.ok (first ++ pg :: pf :: rest))
  /-- A field other than the two fails, or one of the two does. -/
  | fault (fault : Fault) : Exchanged setup record before f g after start (.error fault) (.error fault)
  /-- Both of the two fail, so the first one is the one that shows. -/
  | faults {first : List FieldProperty} {fault fault' : Fault} {c : Context} :
      outcome (properties setup record before) start = (.ok first, c) →
      outcome (property setup record f) c = (.error fault, c) →
      outcome (property setup record g) c = (.error fault', c) →
      Exchanged setup record before f g after start (.error fault) (.error fault')

variable {record : Text} {before after : List Json} {f g : Json} {s t : Table Text Json.Entries}
  {c d : Context}

theorem matches_property_node (record : Text) (field : Json) :
    Matches s t (property setup record field) (property setup record field) :=
  matches_property_self fun _ _ type _ => matches_node setup type

theorem matches_properties_node (record : Text) (list : List Json) :
    Matches s t (properties setup record list) (properties setup record list) :=
  matches_properties (List.forall₂_same.2 fun field _ => matches_property_node record field)

theorem properties_of_fault {field : Json} {more : List Json} {fault : Fault}
    (h : outcome (property setup record field) c = (.error fault, d)) :
    outcome (properties setup record (field :: more)) c = (.error fault, d) := by
  rw [properties, bind_of_fault h]

theorem properties_of_ok {field : Json} {more : List Json} {p : FieldProperty}
    (h : outcome (property setup record field) c = (.ok p, d)) :
    outcome (properties setup record (field :: more)) c =
      ((outcome (properties setup record more) d).1.map fun rest => p :: rest,
        (outcome (properties setup record more) d).2) := by
  rw [properties, bind_of_ok h, outcome_map]

/-- Two fields whose types define nothing may change places where they come to be converted, in contexts
that look alike. -/
theorem exchanged_pair {start : Context} {first : List FieldProperty}
    (hbefore : outcome (properties setup record before) start = (.ok first, c))
    (hf : DefinesNothing f) (hg : DefinesNothing g) (hc : c.Sound) (hd : d.Sound)
    (h : c.Lookalike s t d) :
    Exchanged setup record before f g after start
        ((outcome (properties setup record (f :: g :: after)) c).1.map fun rest => first ++ rest)
        ((outcome (properties setup record (g :: f :: after)) d).1.map fun rest => first ++ rest)
      ∧ (outcome (properties setup record (f :: g :: after)) c).2.Lookalike s t
        (outcome (properties setup record (g :: f :: after)) d).2 := by
  -- neither field changes its context, so each is converted as it is there in either order
  have hboth : ∀ field, DefinesNothing field → ∃ result,
      outcome (property setup record field) c = (result, c)
        ∧ outcome (property setup record field) d = (result, d) := by
    intro field hfield
    refine ⟨(outcome (property setup record field) c).1, Prod.ext rfl ?_, Prod.ext ?_ ?_⟩
    · exact still_property record hfield c hc
    · exact (matches_property_node record field c d h).1.symm
    · exact still_property record hfield d hd
  obtain ⟨rf, hfc, hfd⟩ := hboth f hf
  obtain ⟨rg, hgc, hgd⟩ := hboth g hg
  cases rf with
  | error fault =>
    rw [properties_of_fault hfc]
    cases rg with
    | error fault' =>
      rw [properties_of_fault hgd]
      exact ⟨.faults hbefore hfc hgc, h⟩
    | ok pg =>
      rw [properties_of_ok hgd, properties_of_fault hfd]
      exact ⟨.fault fault, h⟩
  | ok pf =>
    rw [properties_of_ok hfc]
    cases rg with
    | error fault' =>
      rw [properties_of_fault hgc, properties_of_fault hgd]
      exact ⟨.fault fault', h⟩
    | ok pg =>
      rw [properties_of_ok hgc, properties_of_ok hgd, properties_of_ok hfd]
      obtain ⟨hrest, hlook⟩ := matches_properties_node record after c d h
      rcases hx : outcome (properties setup record after) c with ⟨result, c'⟩
      rcases hy : outcome (properties setup record after) d with ⟨result', d'⟩
      rw [hx, hy] at hrest hlook
      obtain rfl : result = result' := hrest
      cases result with
      | error fault => exact ⟨.fault fault, hlook⟩
      | ok rest => exact ⟨.properties hbefore hfc hgc hx, hlook⟩

/-- Two fields of a record whose types define nothing may change places, in contexts that look alike. -/
theorem exchanged_properties (hf : DefinesNothing f) (hg : DefinesNothing g) (hc : c.Sound)
    (hd : d.Sound) (h : c.Lookalike s t d) :
    Exchanged setup record before f g after c
        (outcome (properties setup record (before ++ f :: g :: after)) c).1
        (outcome (properties setup record (before ++ g :: f :: after)) d).1
      ∧ (outcome (properties setup record (before ++ f :: g :: after)) c).2.Lookalike s t
        (outcome (properties setup record (before ++ g :: f :: after)) d).2 := by
  obtain ⟨hfirst, hlook⟩ := matches_properties_node record before c d h
  rw [properties_append, properties_append]
  rcases hx : outcome (properties setup record before) c with ⟨result, c'⟩
  rcases hy : outcome (properties setup record before) d with ⟨result', d'⟩
  rw [hx, hy] at hfirst hlook
  obtain rfl : result = result' := hfirst
  cases result with
  | error fault =>
    rw [bind_of_fault hx, bind_of_fault hy]
    exact ⟨.fault fault, hlook⟩
  | ok first =>
    have hc' : c'.Sound := ((evolving_properties before).of_ok hc hx).sound
    have hd' : d'.Sound := ((evolving_properties before).of_ok hd hy).sound
    rw [bind_of_ok hx, bind_of_ok hy, outcome_map, outcome_map]
    exact exchanged_pair hx hf hg hc' hd' hlook

/-- A record that has been entered, by the properties of its fields. -/
theorem outcome_recordBody_of_fields {qualified : Text} {attributes : Json.Entries} {list : List Json}
    (hl : attributes.attr? "fields" = some (.arr list)) (c : Context) :
    outcome (recordBody setup qualified attributes) c =
      match outcome (properties setup qualified list) c with
      | (.error fault, c') => (.error fault, c')
      | (.ok made, c') =>
        (.ok (recordOf setup.options qualified attributes made),
          c'.define qualified (recordOf setup.options qualified attributes made)) := by
  obtain ⟨l, hlist, rfl⟩ := fieldList_of_attr? qualified hl
  rw [outcome_recordBody, hlist]
  dsimp only
  rw [fields_eq, outcome_map]
  rcases outcome (properties setup qualified l.1) c with ⟨result, c'⟩
  cases result with
  | error fault => rfl
  | ok made => rfl

/-- Two fields of a record that has been entered may change places, if their types define nothing.  The
definitions end alike but for the one of the record. -/
theorem exchanged_recordBody {qualified : Text} {attributes other : Json.Entries}
    (hl : attributes.attr? "fields" = some (.arr (before ++ f :: g :: after)))
    (hl' : other.attr? "fields" = some (.arr (before ++ g :: f :: after)))
    (hkeywords : recordOf setup.options qualified other = recordOf setup.options qualified attributes)
    (hf : DefinesNothing f) (hg : DefinesNothing g) (hc : c.Sound) (hd : d.Sound)
    (h : c.Lookalike s s d) :
    let one := outcome (recordBody setup qualified attributes) c
    let two := outcome (recordBody setup qualified other) d
    one.2.Lookalike one.2.definitions two.2.definitions two.2
      ∧ ∃ made made', Exchanged setup qualified before f g after c made made'
        ∧ one.1 = made.map (recordOf setup.options qualified attributes)
        ∧ two.1 = made'.map (recordOf setup.options qualified attributes)
        ∧ one.2.definitions.keys = two.2.definitions.keys
        ∧ ∀ p ≠ qualified, one.2.definitions.get? p = two.2.definitions.get? p := by
  intro one two
  have hone : one = _ := outcome_recordBody_of_fields hl c
  have htwo : two = _ := outcome_recordBody_of_fields hl' d
  obtain ⟨hexchanged, hlook⟩ : Exchanged setup qualified before f g after c _ _ ∧ _ :=
    exchanged_properties hf hg hc hd h
  rcases hx : outcome (properties setup qualified (before ++ f :: g :: after)) c with ⟨made, c'⟩
  rcases hy : outcome (properties setup qualified (before ++ g :: f :: after)) d with ⟨made', d'⟩
  rw [hx] at hone hexchanged hlook
  rw [hy, hkeywords] at htwo
  rw [hy] at hexchanged hlook
  have hsame : c'.definitions = d'.definitions := hlook.definitions_eq
  cases made with
  | error fault =>
    cases made' with
    | error fault' =>
      rw [hone, htwo]
      exact ⟨hlook.rebase, _, _, hexchanged, rfl, rfl, congrArg Table.keys hsame, fun p _ => by
        rw [hsame]⟩
    | ok made' => cases hexchanged
  | ok made =>
    cases made' with
    | error fault' => cases hexchanged
    | ok made' =>
      rw [hone, htwo]
      refine ⟨⟨hlook.seen, hlook.named, [], rfl, rfl⟩, _, _, hexchanged, rfl, rfl, ?_, fun p hp => ?_⟩
      · exact Table.keys_set_congr (congrArg Table.keys hsame) qualified _ _
      · show (c'.definitions.set _ _).get? p = (d'.definitions.set _ _).get? p
        rw [Table.get?_set, Table.get?_set, if_neg hp, if_neg hp, hsame]

/-- **Two fields of a record whose types define nothing may change places.**  If the record is entered at
all, its fields end as they do in the other order, and so do the definitions but for its own. -/
theorem exchanged_record {name : Text} {attributes : Json.Entries} (hc : c.Sound)
    (hs : shape (.obj attributes) = .record name attributes)
    (hl : attributes.attr? "fields" = some (.arr (before ++ f :: g :: after)))
    (hf : DefinesNothing f) (hg : DefinesNothing g) (enclosing : Text) :
    let other := attributes.put "fields" (.arr (before ++ g :: f :: after))
    let one := outcome (node setup (.obj attributes) enclosing) c
    let two := outcome (node setup (.obj other) enclosing) c
    one.2.Lookalike one.2.definitions two.2.definitions two.2
      ∧ (∀ qualified, Name.ofNamed name attributes enclosing = .ok qualified → qualified ∉ c.seen →
          ∃ made made', Exchanged setup qualified before f g after (c.enter qualified attributes) made made'
            ∧ one.1 = made.map (recordOf setup.options qualified attributes)
            ∧ two.1 = made'.map (recordOf setup.options qualified attributes)
            ∧ one.2.definitions.keys = two.2.definitions.keys
            ∧ ∀ p ≠ qualified, one.2.definitions.get? p = two.2.definitions.get? p)
      ∧ ((∀ qualified, Name.ofNamed name attributes enclosing = .ok qualified → qualified ∈ c.seen) →
          one = two) := by
  intro other one two
  have hs' : shape (.obj other) = .record name other := shape_put_fields hs _
  have hl' : other.attr? "fields" = some (.arr (before ++ g :: f :: after)) :=
    Json.Entries.attr?_put_self "fields" _ attributes
  have hname : Name.ofNamed name other enclosing = Name.ofNamed name attributes enclosing :=
    ofNamed_put_fields name attributes _ enclosing
  have hone : one = _ := outcome_record hs c
  have htwo : two = _ := outcome_record hs' c
  rw [hname] at htwo
  cases hq : Name.ofNamed name attributes enclosing with
  | error fault =>
    rw [hq] at hone htwo
    rw [hone, htwo]
    refine ⟨.refl c, fun p hp => ?_, fun _ => rfl⟩
    cases hp
  | ok qualified =>
    rw [hq] at hone htwo
    dsimp only at hone htwo
    by_cases hseen : qualified ∈ c.seen
    · rw [if_pos hseen, outcome_reference] at hone htwo
      rw [hone, htwo]
      exact ⟨.refl c, fun _ hq hnew => absurd hseen (Except.ok.inj hq ▸ hnew), fun _ => rfl⟩
    · rw [if_neg hseen] at hone htwo
      rw [hone, htwo]
      have halike : Spelling.Alike attributes other :=
        (Spelling.Alike.refl attributes).put (by decide : Text.ofString "fields" ∈ Spelling.changed) _
      have hkeywords : recordOf setup.options qualified other =
          recordOf setup.options qualified attributes :=
        funext fun made => halike.recordKeywords qualified _ _
      have hsound := hc.enter (defines_of_record hs hq) hseen
      have hsound' := hc.enter (defines_of_record hs' (hname.trans hq)) hseen
      have hentered : Context.Interchangeable attributes other :=
        .inr ⟨(isRecord_of_shape hs).2.2, (isRecord_of_shape hs').2.2⟩
      obtain ⟨hlook, hexchanged⟩ := exchanged_recordBody hl hl' hkeywords hf hg hsound hsound'
        ((Context.Lookalike.refl c).enter hentered qualified)
      refine ⟨hlook, fun p hp _ => ?_, fun hcut => absurd (hcut qualified rfl) hseen⟩
      cases hp
      exact hexchanged

end Conversion

namespace Session

open Conversion

/-- **A type without definitions does not touch the context.**  In every context of a session, calls
that failed included, a type in which no record, error, enum or fixed type stands leaves all tables as
they are, whether it is converted or fails.

So the order of two fields next to each other with such types does not matter to a record.  In every
sound context, be it one of a session or one in which a conversion comes to the record, let the fields
change places.  If the record is entered and all its fields are converted, the same property is made of
each of the two, and of each field before and after them; and the fields fail in one order if they fail
in the other, with the same fault unless both of the two fail.  The definitions that are left are the
same but for the one of the record, and all calls after it have the same results and define the same
records. -/
theorem definition_free (setup : Setup) :
    (∀ c, c.Reachable setup → ∀ schema enclosing, FreeOfDefinitions schema →
        (outcome (node setup schema enclosing) c).2 = c)
      ∧ ∀ c, c.Sound → ∀ (name enclosing : Text) (attributes : Json.Entries) (before after : List Json)
          (f g : Json),
        shape (.obj attributes) = .record name attributes →
        attributes.attr? "fields" = some (.arr (before ++ f :: g :: after)) →
        DefinesNothing f → DefinesNothing g →
        let other := attributes.put "fields" (.arr (before ++ g :: f :: after))
        let one := outcome (node setup (.obj attributes) enclosing) c
        let two := outcome (node setup (.obj other) enclosing) c
        (∀ qualified, Name.ofNamed name attributes enclosing = .ok qualified → qualified ∉ c.seen →
            ∃ made made',
              Exchanged setup qualified before f g after (c.enter qualified attributes) made made'
              ∧ one.1 = made.map (recordOf setup.options qualified attributes)
              ∧ two.1 = made'.map (recordOf setup.options qualified attributes)
              ∧ one.2.definitions.keys = two.2.definitions.keys
              ∧ ∀ p ≠ qualified, one.2.definitions.get? p = two.2.definitions.get? p)
          ∧ ((∀ qualified, Name.ofNamed name attributes enclosing = .ok qualified → qualified ∈ c.seen) →
              one = two)
          ∧ ∀ calls, (run setup one.2 calls).1 = (run setup two.2 calls).1
            ∧ ∃ finished, (run setup one.2 calls).2.definitions = one.2.definitions.merge finished
              ∧ (run setup two.2 calls).2.definitions = two.2.definitions.merge finished := by
  refine ⟨fun c hc schema enclosing h => still_node setup h enclosing c hc.sound, ?_⟩
  intro c hc name enclosing attributes before after f g hs hl hf hg other one two
  obtain ⟨hlook, hentered, hcut⟩ := exchanged_record hc hs hl hf hg enclosing
  refine ⟨hentered, hcut, fun calls => ?_⟩
  obtain ⟨hresults, hafter⟩ := run_lookalikes hlook calls
  exact ⟨hresults, hafter.definitions⟩

/-- The record of a card with some fields. -/
def card (list : List Json) : Json.Entries :=
  [(.text "type", "record"), (.text "name", "Card"), (.text "fields", .arr list)]

def suitField : Json :=
  .obj [(.text "name", "suit"), (.text "type", "Suit")]

/-- The suit that beats the one of the card, if there is one. -/
def strongerField : Json :=
  .obj [(.text "name", "stronger"), (.text "type", .arr ["null", "Suit"])]

/-- A card after a deal that has failed: both fields hold the name of the suit that has been met by
then. -/
theorem definition_free_card :
    let c := (run Options.strict Context.empty [.node deal []]).2
    let one := outcome (node Options.strict (.obj (card [suitField, strongerField])) "cards") c
    let two := outcome (node Options.strict
      (.obj ((card [suitField, strongerField]).put "fields" (.arr [strongerField, suitField]))) "cards") c
    (outcome (node Options.strict (.arr ["null", "Suit"]) "cards") c).2 = c
      ∧ one.1.toBool = true
      ∧ (∃ made made', Exchanged Options.strict "cards.Card" [] suitField strongerField []
            (c.enter "cards.Card" (card [suitField, strongerField])) made made'
          ∧ one.1 = made.map (recordOf Options.strict "cards.Card" (card [suitField, strongerField]))
          ∧ two.1 = made'.map (recordOf Options.strict "cards.Card" (card [suitField, strongerField])))
      ∧ ∀ calls, (run Options.strict one.2 calls).1 = (run Options.strict two.2 calls).1 := by
  intro c one two
  have hreachable : c.Reachable Options.strict := ⟨_, rfl⟩
  have hnullable : FreeOfDefinitions (.arr ["null", "Suit"]) := by
    refine free_of_arr fun j hj => ?_
    simp only [List.mem_cons, List.not_mem_nil, or_false] at hj
    rcases hj with rfl | rfl
    · exact free_of_str _
    · exact free_of_str _
  have hsuit : DefinesNothing suitField := ⟨_, _, rfl, rfl, free_of_str "Suit"⟩
  have hstronger : DefinesNothing strongerField := ⟨_, _, rfl, rfl, hnullable⟩
  have hunseen : Text.ofString "cards.Card" ∉ c.seen := by
    have hseen : c.seen = [Text.ofString "cards.Deal"] := by decide +kernel
    rw [hseen]
    decide
  obtain ⟨hstill, hexchange⟩ := definition_free Options.strict
  obtain ⟨hentered, -, hlater⟩ := hexchange c hreachable.sound "Card" "cards"
    (card [suitField, strongerField]) [] [] suitField strongerField rfl rfl hsuit hstronger
  obtain ⟨made, made', hfields, hone, htwo, -⟩ := hentered "cards.Card" rfl hunseen
  exact ⟨hstill c hreachable _ "cards" hnullable, by decide +kernel, ⟨made, made', hfields, hone, htwo⟩,
    fun calls => (hlater calls).1⟩

end Session

end AvroJsonSchema
