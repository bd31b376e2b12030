import AvroJsonSchema.Proofs.Contexts

/-!
# Sessions

A converter may be called many times on one context: with nodes, unions and names, within any
namespaces, and also after a call that has failed.  The invariant of contexts holds after every such
session; where no call has failed, every record that has been entered has been defined.

* **`Call`**, **`Session.run`**: a call, and calls one after the other.
* **`Context.Reachable`**: the contexts that sessions lead to.
* **`Session.tables_agree`**: what the three tables of such a context say of each other.
-/

namespace AvroJsonSchema

/-- A call of a converter on a context. -/
inductive Call where
  | node (schema : Json) (enclosing : Text)
  | union (members : List Json) (enclosing : Text)
  | typeName (name enclosing : Text)

/-- What a call does. -/
def Call.step (setup : Setup) : Call → Step Json.Entries
  | .node schema enclosing => Conversion.node setup schema enclosing
  | .union members enclosing => Conversion.union setup members enclosing
  | .typeName name enclosing => Conversion.typeName setup name enclosing

namespace Session

/-- The results of some calls one after the other, and the context they leave.  A call after one
that has failed finds the context as that one has left it. -/
def run (setup : Setup) (c : Context) : List Call → List (Except Fault Json.Entries) × Context
  | [] => ([], c)
  | call :: calls =>
    let first := Step.outcome (call.step setup) c
    let rest := run setup first.2 calls
    (first.1 :: rest.1, rest.2)

end Session

/-- A context that a session leads to. -/
def Context.Reachable (setup : Setup) (c : Context) : Prop :=
  ∃ calls, c = (Session.run setup Context.empty calls).2

theorem Call.evolving (setup : Setup) (call : Call) : Step.Evolving (call.step setup) := by
  cases call with
  | node schema enclosing => exact Conversion.evolving_node schema enclosing
  | union members enclosing => exact Conversion.evolving_union members enclosing
  | typeName name enclosing => exact Conversion.evolving_typeName name

namespace Session

theorem run_sound {setup : Setup} {c : Context} (h : c.Sound) (calls : List Call) :
    (run setup c calls).2.Sound := by
  induction calls generalizing c with
  | nil => exact h
  | cons call calls ih =>
    obtain ⟨unfinished, he, -⟩ := call.evolving setup c h
    exact ih he.sound

/-- Calls that all end well leave nothing unfinished. -/
theorem run_evolves {setup : Setup} {c : Context} (h : c.Sound) {calls : List Call}
    (hok : ∀ result ∈ (run setup c calls).1, ∃ schema, result = .ok schema) :
    c.Evolves (run setup c calls).2 [] := by
  induction calls generalizing c with
  | nil => exact .refl h
  | cons call calls ih =>
    obtain ⟨unfinished, he, hu⟩ := call.evolving setup c h
    obtain ⟨schema, hs⟩ := hok _ List.mem_cons_self
    rw [hu schema hs] at he
    exact he.trans (ih he.sound fun result hr => hok result (List.mem_cons_of_mem _ hr))

end Session

theorem Context.Reachable.sound {setup : Setup} {c : Context} (h : c.Reachable setup) : c.Sound := by
  obtain ⟨calls, rfl⟩ := h
  exact Session.run_sound .empty calls

/-- **The tables agree after every session.**  Whatever is called, and whichever calls fail: what is
defined has been entered, and what has been entered is named; a named type is the definition of its
full name, under that name again inside its own namespace; a named record has been entered.  If no
call fails, exactly the records that have been entered are defined. -/
theorem Session.tables_agree (setup : Setup) (calls : List Call) :
    let results := (Session.run setup Context.empty calls).1
    let c := (Session.run setup Context.empty calls).2
    (∀ q ∈ c.definitions.keys, q ∈ c.seen)
      ∧ (∀ q ∈ c.seen, q ∈ c.named.keys)
      ∧ (∀ q attributes, (q, attributes) ∈ c.named → Schema.Defines attributes q)
      ∧ (∀ q attributes, (q, attributes) ∈ c.named → Schema.IsRecord attributes → q ∈ c.seen)
      ∧ ((∀ result ∈ results, ∃ schema, result = .ok schema) →
          ∀ q, q ∈ c.definitions.keys ↔ q ∈ c.seen) := by
  intro results c
  have hc : c.Sound := run_sound .empty calls
  refine ⟨hc.defined_seen, hc.seen_named, hc.named_defines, hc.record_seen, fun hok q => ?_⟩
  refine ⟨hc.defined_seen q, fun hq => ?_⟩
  rcases (run_evolves .empty hok).defined_of_seen hq with hq | hq
  · cases hq
  · exact hq

end AvroJsonSchema
