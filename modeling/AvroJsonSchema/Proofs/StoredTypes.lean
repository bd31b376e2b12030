import AvroJsonSchema.Proofs.Sessions

/-!
# Names that stand for a definition

The name of an enum or of a fixed type is converted as the definition that was stored when it was
met.  Such a definition has no node below it, so what is made of it is told by the definition and its
full name, whatever has been met before and wherever it stands.  Inside the namespace of its full name
it is the same type again, and it is stored under that name as it is stored already.

* **`Conversion.result_of_leaf`**: what is made of an enum or a fixed type.
* **`Conversion.outcome_typeName_of_leaf`**: what is made of its name.
* **`Step.Still`**: a part changes nothing.  **`Conversion.still_typeName`**: a name does not.
* **`Session.name_inlined`**: the two are the same, in every context of a session.
-/

namespace AvroJsonSchema

open Schema Step

namespace Step

variable {α β : Type}

/-- A part of a conversion leaves every sound context as it is, whatever comes of it. -/
def Still (x : Step α) : Prop :=
  ∀ c, c.Sound → (outcome x c).2 = c

theorem Still.ofExcept (x : Except Fault α) : Still (ofExcept x) :=
  fun c _ => by rw [outcome_ofExcept]

theorem Still.inspect (look : Context → Except Fault α) : Still (inspect look) :=
  fun c _ => by rw [outcome_inspect]

theorem Still.bind {x : Step α} {f : α → Step β} (hx : Still x) (hf : ∀ a, Still (f a)) :
    Still (x >>= f) := by
  intro c hc
  have hfirst := hx c hc
  rw [outcome_bind]
  rcases hx : outcome x c with ⟨result, c'⟩
  rw [hx] at hfirst
  obtain rfl : c' = c := hfirst
  cases result with
  | error fault => rfl
  | ok a => exact hf a c' hc

theorem Still.compositional : Compositional @Still :=
  ⟨.ofExcept, .inspect, .bind⟩

end Step

namespace Conversion

variable {setup : Setup} {kind : Leaf} {name qualified place : Text} {attributes : Json.Entries}

/-- What is made of an enum or a fixed type depends on the definition and its full name alone. -/
theorem result_of_leaf (hs : objectShape attributes = .leaf kind name attributes)
    (hq : Name.ofNamed name attributes place = .ok qualified) (c : Context) :
    (outcome (node setup (.obj attributes) place) c).1 =
      (leafKeywords setup.options kind qualified attributes).map (Keywords.annotate attributes) := by
  have hnode : node setup (.obj attributes) place = _ := node_of_leaf hs
  rw [hnode, outcome_leaf, hq]

/-- The name of an enum or of a fixed type is the stored definition again, and nothing else is
stored. -/
theorem outcome_typeName_of_leaf {c : Context} (hc : c.Sound) {used enclosing : Text}
    (hp : Primitive.ofText? used = none) (hr : c.resolve used enclosing = .ok qualified)
    (hunseen : qualified ∉ c.seen) (ha : c.named.get? qualified = some attributes)
    (hs : objectShape attributes = .leaf kind name attributes) :
    outcome (typeName setup used enclosing) c =
      ((leafKeywords setup.options kind qualified attributes).map (Keywords.annotate attributes),
        c) := by
  have hmem := Table.mem_of_get?_eq_some (Table.sharp_of_lawful _) ha
  have hdefines := hc.named_defines _ _ hmem
  -- the namespace of the full name is where the definition has this full name again
  have hq : Name.ofNamed name attributes (Name.namespaceOf qualified) = .ok qualified :=
    ofNamed_of_full (objectShape_leaf hs).2.1 hdefines.requalified
  have hnode : node setup (.obj attributes) (Name.namespaceOf qualified) = _ := node_of_leaf hs
  rw [outcome_typeName_of_unseen hc hp hr hunseen ha, hnode, outcome_leaf, hq]
  dsimp only
  rw [Context.addNamed_of_get? ha, ite_self]

/-- A name leaves the context as it is, whatever is made of it. -/
theorem still_typeName (used enclosing : Text) : Still (typeName setup used enclosing) := by
  intro c hc
  cases hp : Primitive.ofText? used with
  | some p => rw [outcome_typeName, hp]
  | none =>
    cases hr : c.resolve used enclosing with
    | error fault => rw [outcome_typeName, hp, hr]
    | ok qualified =>
      by_cases hq : qualified ∈ c.seen
      · rw [outcome_typeName, hp, hr]
        dsimp only
        rw [if_pos hq, outcome_reference]
      · obtain ⟨attributes, ha⟩ := Context.resolve_ok hr
        obtain ⟨kind, n, hs⟩ := hc.leaf_of_unseen ha hq
        rw [outcome_typeName_of_leaf hc hp hr hq ha hs]

end Conversion

namespace Session

open Conversion

/-- **The name of an enum or of a fixed type stands for its definition.**  In a context of a session,
calls that failed included, take a name of no primitive type that means the type of a full name under
which no record has been entered.  A definition is stored under the full name.  Wherever this
definition stands, as long as it has this full name there, and whatever has been met before, the same
is made of it as of the name, be it keywords in their order or a fault.  The name leaves the context
as it is. -/
theorem name_inlined (setup : Setup) (c : Context) (hc : c.Reachable setup)
    (name enclosing qualified : Text) (hp : Primitive.ofText? name = none)
    (hr : c.resolve name enclosing = .ok qualified) (hunseen : qualified ∉ c.seen) :
    ∃ attributes, c.named.get? qualified = some attributes
      ∧ Name.full (.obj attributes) (Name.namespaceOf qualified) = .ok (.str qualified)
      ∧ (∀ (place : Text) (other : Context), Name.full (.obj attributes) place = .ok (.str qualified) →
          (outcome (typeName setup name enclosing) c).1 =
            (outcome (node setup (.obj attributes) place) other).1)
      ∧ (outcome (typeName setup name enclosing) c).2 = c := by
  obtain ⟨attributes, ha⟩ := Context.resolve_ok hr
  obtain ⟨kind, n, hs⟩ := hc.sound.leaf_of_unseen ha hunseen
  have hmem := Table.mem_of_get?_eq_some (Table.sharp_of_lawful _) ha
  have hname : outcome (typeName setup name enclosing) c = _ :=
    outcome_typeName_of_leaf hc.sound hp hr hunseen ha hs
  refine ⟨attributes, ha, (hc.sound.named_defines _ _ hmem).requalified,
    fun place other hplace => ?_, ?_⟩
  · rw [hname, result_of_leaf hs (ofNamed_of_full (objectShape_leaf hs).2.1 hplace)]
  · rw [hname]

/-- A deal of cards that fails after its suit has been met. -/
def deal : Json :=
  .obj [(.text "type", "record"), (.text "name", "cards.Deal"), (.text "fields", .arr [
    .obj [(.text "name", "trump"), (.text "type", .obj [(.text "type", "enum"),
      (.text "name", "Suit"), (.text "symbols", .arr ["hearts", "spades"])])],
    .obj [(.text "name", "dealer"), (.text "type", "Player")]])]

theorem name_inlined_deal :
    let c := (run Options.strict Context.empty [.node deal []]).2
    c.resolve "Suit" "cards" = .ok "cards.Suit" ∧ Text.ofString "cards.Suit" ∉ c.seen
    ∧ ∃ attributes, c.named.get? ("cards.Suit" : Text) = some attributes
      ∧ (∀ (place : Text) (other : Context),
          Name.full (.obj attributes) place = .ok (.str "cards.Suit") →
          (outcome (typeName Options.strict "Suit" "cards") c).1 =
            (outcome (node Options.strict (.obj attributes) place) other).1)
      ∧ (outcome (typeName Options.strict "Suit" "cards") c).2 = c := by
  intro c
  have hunseen : Text.ofString "cards.Suit" ∉ c.seen := by
    have hseen : c.seen = [Text.ofString "cards.Deal"] := by decide +kernel
    rw [hseen]
    decide
  have hmeans : (c.resolve "Suit" "cards").toOption = some (Text.ofString "cards.Suit") := by
    decide +kernel
  have hr : c.resolve "Suit" "cards" = .ok "cards.Suit" := by
    cases h : c.resolve "Suit" "cards" <;> rw [h] at hmeans <;> cases hmeans
    rfl
  obtain ⟨attributes, ha, -, hsame, hstill⟩ :=
    name_inlined Options.strict c ⟨_, rfl⟩ "Suit" "cards" "cards.Suit" rfl hr hunseen
  exact ⟨hr, hunseen, attributes, ha, hsame, hstill⟩

end Session

end AvroJsonSchema
