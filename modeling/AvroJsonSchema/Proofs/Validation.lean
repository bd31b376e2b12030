import AvroJsonSchema.Proofs.AvroTypes
import AvroJsonSchema.Proofs.Pointer

/-!
# Validation against a schema

The part of JSON Schema that documents are written in.  A schema judges a value by the verdicts of its
keywords: one rejection rejects, and nothing is accepted while a keyword has no verdict.  Annotations
have none to give; a keyword that is neither an annotation nor known here has no verdict, so nothing
is said about values under it.  References may lead in circles, so a bound on the steps is given, and a
verdict counts if it stands under all bounds from some one on.

* **`JsonSchema.judge`**: the verdict of a schema on a value within a bound.
* **`JsonSchema.Accepts`**, **`JsonSchema.Rejects`**: the verdict under every bound that is large
  enough.
* **`JsonSchema.judge_essential`**: annotations do not matter.
-/

namespace AvroJsonSchema

open Table

/-- Whether a number is whole. -/
def Binary64.isWhole : Binary64 → Bool
  | .finite _ _ (.ofNat _) _ => true
  | .finite _ mantissa (.negSucc e) _ => mantissa % Nat.pow 2 (e + 1) = 0
  | _ => false

namespace SchemaType

/-- Every type of JSON Schema. -/
def all : List SchemaType :=
  [.string, .integer, .number, .boolean, .null, .object, .array]

/-- The type of a text. -/
def ofText? (t : Text) : Option SchemaType :=
  all.find? (·.text = t)

/-- Whether a value has a type; a number without a fraction is an integer however it is written. -/
def holds : SchemaType → Json → Bool
  | .null, .null => true
  | .boolean, .bool _ => true
  | .integer, .int _ => true
  | .integer, .float x => x.isWhole
  | .number, .int _ => true
  | .number, .float x => x.isFinite
  | .string, .str _ => true
  | .array, .arr _ => true
  | .object, .obj _ => true
  | _, _ => false

end SchemaType

namespace JsonSchema

/-- The keywords that judge values. -/
inductive Assertion where
  | reference | type | enum | items | properties | additionalProperties | required | oneOf
deriving DecidableEq

namespace Assertion

/-- The text of a keyword. -/
def text : Assertion → Text
  | .reference => "$ref"
  | .type => "type"
  | .enum => "enum"
  | .items => "items"
  | .properties => "properties"
  | .additionalProperties => "additionalProperties"
  | .required => "required"
  | .oneOf => "oneOf"

/-- Every keyword that judges values. -/
def all : List Assertion :=
  [.reference, .type, .enum, .items, .properties, .additionalProperties, .required, .oneOf]

/-- The keyword of a text. -/
def ofText? (t : Text) : Option Assertion :=
  all.find? (·.text = t)

theorem ofText?_text (a : Assertion) : ofText? a.text = some a := by
  cases a <;> decide

end Assertion

/-- The keywords that judge nothing. -/
def annotations : List Text :=
  [Text.ofString "$schema", Text.ofString "definitions", Text.ofString "$defs",
    Text.ofString "title", Text.ofString "description", Text.ofString "default",
    Text.ofString "contentEncoding"]

/-- Whether a key is a keyword that judges nothing. -/
def annotates : Json.Key → Bool
  | .text t => annotations.contains t
  | _ => false

/-- The verdict of several judges. -/
def verdict (answers : List (Option Bool)) : Option Bool :=
  if some false ∈ answers then some false
  else if none ∈ answers then none
  else some true

/-- The verdict of a choice: exactly one judge accepts. -/
def choice (answers : List (Option Bool)) : Option Bool :=
  if none ∈ answers then none else some (answers.count (some true) = 1)

/-- The type that a text in a list of types names. -/
def typeOf? : Json → Option SchemaType
  | .str t => SchemaType.ofText? t
  | _ => none

/-- Whether a list of symbols holds a text. -/
def isSymbol (symbols : List Json) : Json → Bool
  | .str t => symbols.any fun
    | .str s => s = t
    | _ => false
  | _ => false

/-- Whether an object has a property of a name. -/
def isPresent (entries : Json.Entries) : Json → Bool
  | .str t => (entries.attr? t).isSome
  | _ => false

/-- The schemas of the properties among some keywords. -/
def properties (keywords : Json.Entries) : Json.Entries :=
  match keywords.attr? "properties" with
  | some (.obj table) => table
  | _ => []

section Judges

variable (draft : Draft) (resolve : Text → Option Json)

/-- The verdict of a keyword with its operand among some keywords, given the verdicts of the schemas
below it and what references lead to. -/
def judgeAssertion (below : Json → Json → Option Bool) (keywords : Json.Entries)
    (assertion : Assertion) (operand value : Json) : Option Bool :=
  match assertion, operand with
  | .reference, .str r => (resolve r).bind (below · value)
  | .type, .str t => (SchemaType.ofText? t).map (·.holds value)
  | .type, .arr types => (types.mapM typeOf?).map (·.any (·.holds value))
  | .enum, .arr symbols =>
    if symbols.all Keywords.symbols?.isText then some (isSymbol symbols value) else none
  | .items, schema =>
    match value with
    | .arr items => verdict (items.map (below schema))
    | _ => some true
  | .properties, .obj table =>
    match value with
    | .obj entries => verdict (entries.map fun e =>
      match Table.get? e.1 table with
      | some schema => below schema e.2
      | none => some true)
    | _ => some true
  | .additionalProperties, schema =>
    match value with
    | .obj entries => verdict (entries.map fun e =>
      if (properties keywords).has e.1 then some true else below schema e.2)
    | _ => some true
  | .required, .arr names =>
    match value with
    | .obj entries => some (names.all (isPresent entries))
    | _ => some true
  | .oneOf, .arr branches => choice (branches.map (below · value))
  | _, _ => none

/-- The verdict of an entry of a schema. -/
def judgeEntry (below : Json → Json → Option Bool) (keywords : Json.Entries) (e : Json.Key × Json)
    (value : Json) : Option Bool :=
  if annotates e.1 then some true
  else
    match e.1 with
    | .text t => (Assertion.ofText? t).bind fun a => judgeAssertion resolve below keywords a e.2 value
    | _ => none

/-- The keywords that count: in the earlier draft a reference hides those beside it. -/
def effective (keywords : Json.Entries) : Json.Entries :=
  match draft with
  | .draft07 =>
    if (keywords.attr? "$ref").isSome then keywords.filter (fun e => e.1 = .text "$ref")
    else keywords
  | .draft202012 => keywords

/-- The verdict of a schema on a value within a bound on the steps. -/
def judge : Nat → Json → Json → Option Bool
  | 0, _, _ => none
  | _ + 1, .bool b, _ => some b
  | bound + 1, .obj keywords, value =>
    verdict ((effective draft keywords).map fun e =>
      judgeEntry resolve (judge bound) (effective draft keywords) e value)
  | _ + 1, _, _ => none

/-- A schema accepts a value. -/
def Accepts (schema value : Json) : Prop :=
  ∃ least, ∀ bound, least ≤ bound → judge draft resolve bound schema value = some true

/-- A schema rejects a value. -/
def Rejects (schema value : Json) : Prop :=
  ∃ least, ∀ bound, least ≤ bound → judge draft resolve bound schema value = some false

end Judges

/-! ### Verdicts -/

theorem verdict_accepts {answers : List (Option Bool)} (h : ∀ a ∈ answers, a = some true) :
    verdict answers = some true := by
  have hfalse : some false ∉ answers := fun hm => absurd (h _ hm) (by decide)
  have hnone : none ∉ answers := fun hm => absurd (h _ hm) (by decide)
  rw [verdict, if_neg hfalse, if_neg hnone]

theorem verdict_rejects {answers : List (Option Bool)} (h : some false ∈ answers) :
    verdict answers = some false := by
  rw [verdict, if_pos h]

/-- Judges that accept anyway may be left out. -/
theorem verdict_filter {α : Type} {l : List α} {p : α → Bool} {f : α → Option Bool}
    (h : ∀ x ∈ l, p x = false → f x = some true) :
    verdict ((l.filter p).map f) = verdict (l.map f) := by
  have hmem : ∀ a, a ≠ some true → (a ∈ (l.filter p).map f ↔ a ∈ l.map f) := by
    intro a ha
    simp only [List.mem_map, List.mem_filter]
    constructor
    · rintro ⟨x, ⟨hx, -⟩, rfl⟩
      exact ⟨x, hx, rfl⟩
    · rintro ⟨x, hx, rfl⟩
      refine ⟨x, ⟨hx, ?_⟩, rfl⟩
      cases hp : p x with
      | true => rfl
      | false => exact absurd (h x hx hp) ha
  unfold verdict
  simp only [hmem (some false) (by decide), hmem none (by decide)]

theorem choice_accepts {before after : List (Option Bool)}
    (h : ∀ a ∈ before ++ after, a = some false) :
    choice (before ++ some true :: after) = some true := by
  have hothers : ∀ l : List (Option Bool), (∀ a ∈ l, a = some false) → l.count (some true) = 0 := by
    intro l hl
    refine List.count_eq_zero.2 fun hm => absurd (hl _ hm) (by decide)
  have hnone : none ∉ before ++ some true :: after := by
    intro hm
    simp only [List.mem_append, List.mem_cons, reduceCtorEq, false_or] at hm
    exact absurd (h none (List.mem_append.2 hm)) (by decide)
  have hbefore := hothers before fun a ha => h a (List.mem_append_left _ ha)
  have hafter := hothers after fun a ha => h a (List.mem_append_right _ ha)
  rw [choice, if_neg hnone, List.count_append, List.count_cons_self, hbefore, hafter]
  rfl

/-- What holds of each of some things under all bounds from some one on holds of all of them at once
from some one on. -/
theorem exists_bound {α : Type} {l : List α} {P : α → Nat → Prop}
    (h : ∀ x ∈ l, ∃ least, ∀ bound, least ≤ bound → P x bound) :
    ∃ least, ∀ bound, least ≤ bound → ∀ x ∈ l, P x bound := by
  induction l with
  | nil => exact ⟨0, by simp⟩
  | cons x l ih =>
    obtain ⟨least, hl⟩ := ih fun y hy => h y (List.mem_cons_of_mem _ hy)
    obtain ⟨first, hx⟩ := h x List.mem_cons_self
    refine ⟨max first least, fun bound hb y hy => ?_⟩
    rcases List.mem_cons.1 hy with rfl | hy
    · exact hx bound (by omega)
    · exact hl bound (by omega) y hy

/-! ### Annotations -/

/-- The keywords that are no annotations. -/
def essential (keywords : Json.Entries) : Json.Entries :=
  keywords.filter fun e => !annotates e.1

theorem attr?_essential {t : Text} (h : annotates (.text t) = false) (keywords : Json.Entries) :
    (essential keywords).attr? t = keywords.attr? t := by
  induction keywords with
  | nil => rfl
  | cons e es ih =>
    rw [essential, List.filter_cons]
    by_cases hk : (e.1 == Json.Key.text t) = true
    · have hkeep : (!annotates e.1) = true := by
        rw [(Json.Key.sharp_text t _).1.1 hk, h]
        rfl
      simp only [hkeep, if_true, Json.Entries.attr?, get?, hk]
    · have hskip : Json.Entries.attr? t (e :: es) = Json.Entries.attr? t es := by
        simp only [Json.Entries.attr?, get?, hk, Bool.false_eq_true, if_false]
      rw [hskip, ← ih]
      split
      · simp only [Json.Entries.attr?, get?, hk, Bool.false_eq_true, if_false]
        rfl
      · rfl

theorem properties_essential (keywords : Json.Entries) :
    properties (essential keywords) = properties keywords := by
  have hattr : (essential keywords).attr? "properties" = keywords.attr? "properties" :=
    attr?_essential (by decide) keywords
  rw [properties, properties, hattr]

variable {draft : Draft} {resolve : Text → Option Json}

theorem judgeAssertion_congr {below : Json → Json → Option Bool} {keywords keywords' : Json.Entries}
    (h : properties keywords = properties keywords') (a : Assertion) (operand value : Json) :
    judgeAssertion resolve below keywords a operand value
      = judgeAssertion resolve below keywords' a operand value := by
  unfold judgeAssertion
  rw [h]

theorem judgeEntry_congr {below : Json → Json → Option Bool} {keywords keywords' : Json.Entries}
    (h : properties keywords = properties keywords') (e : Json.Key × Json) (value : Json) :
    judgeEntry resolve below keywords e value = judgeEntry resolve below keywords' e value := by
  unfold judgeEntry
  simp only [judgeAssertion_congr h]

theorem effective_essential (keywords : Json.Entries) :
    effective draft (essential keywords) = essential (effective draft keywords) := by
  have href : (essential keywords).attr? "$ref" = keywords.attr? "$ref" :=
    attr?_essential (by decide) keywords
  cases draft with
  | draft202012 => rfl
  | draft07 =>
    simp only [effective, href]
    split
    · rw [essential, essential, List.filter_filter, List.filter_filter]
      simp only [Bool.and_comm]
    · rfl

/-- **Annotations do not matter.** -/
theorem judge_essential (bound : Nat) (keywords : Json.Entries) (value : Json) :
    judge draft resolve bound (.obj (essential keywords)) value
      = judge draft resolve bound (.obj keywords) value := by
  cases bound with
  | zero => rfl
  | succ bound =>
    have hproperties := properties_essential (effective draft keywords)
    simp only [judge, effective_essential, judgeEntry_congr hproperties]
    refine verdict_filter fun e _ he => ?_
    have hannotation : annotates e.1 = true := by simpa using he
    rw [judgeEntry, if_pos hannotation]

theorem accepts_essential {keywords : Json.Entries} {value : Json} :
    Accepts draft resolve (.obj (essential keywords)) value
      ↔ Accepts draft resolve (.obj keywords) value := by
  simp only [Accepts, judge_essential]

theorem rejects_essential {keywords : Json.Entries} {value : Json} :
    Rejects draft resolve (.obj (essential keywords)) value
      ↔ Rejects draft resolve (.obj keywords) value := by
  simp only [Rejects, judge_essential]

/-! ### Acceptance and rejection by keywords -/

theorem judgeEntry_text (resolve : Text → Option Json) (below : Json → Json → Option Bool)
    (keywords : Json.Entries) (a : Assertion) (operand value : Json) :
    judgeEntry resolve below keywords (.text a.text, operand) value
      = judgeAssertion resolve below keywords a operand value := by
  have hjudges : annotates (.text a.text) = false := by cases a <;> decide
  simp only [judgeEntry, hjudges, Bool.false_eq_true, if_false, Assertion.ofText?_text,
    Option.bind_some]

theorem judge_obj {keywords : Json.Entries} (h : keywords.attr? "$ref" = none) (bound : Nat)
    (value : Json) :
    judge draft resolve (bound + 1) (.obj keywords) value
      = verdict (keywords.map fun e =>
          judgeEntry resolve (judge draft resolve bound) keywords e value) := by
  have heffective : effective draft keywords = keywords := by
    cases draft with
    | draft202012 => rfl
    | draft07 => simp only [effective, h, Option.isSome_none, Bool.false_eq_true, if_false]
  rw [judge, heffective]

/-- A keyword accepts a value under every bound that is large enough. -/
def Passes (draft : Draft) (resolve : Text → Option Json) (keywords : Json.Entries) (a : Assertion)
    (operand value : Json) : Prop :=
  ∃ least, ∀ bound, least ≤ bound →
    judgeAssertion resolve (judge draft resolve bound) keywords a operand value = some true

/-- A schema accepts what all its keywords accept. -/
theorem accepts_of_passes {keywords : Json.Entries} {value : Json}
    (href : keywords.attr? "$ref" = none)
    (h : ∀ e ∈ keywords, ∃ a : Assertion, e.1 = .text a.text
      ∧ Passes draft resolve keywords a e.2 value) :
    Accepts draft resolve (.obj keywords) value := by
  have hentries : ∀ e ∈ keywords, ∃ least, ∀ bound, least ≤ bound →
      judgeEntry resolve (judge draft resolve bound) keywords e value = some true := by
    intro e he
    obtain ⟨a, hk, least, hl⟩ := h e he
    refine ⟨least, fun bound hb => ?_⟩
    have hentry := judgeEntry_text resolve (judge draft resolve bound) keywords a e.2 value
    rw [← hk] at hentry
    exact hentry.trans (hl bound hb)
  obtain ⟨least, hl⟩ := exists_bound hentries
  refine ⟨least + 1, fun bound hb => ?_⟩
  obtain ⟨n, rfl⟩ : ∃ n, bound = n + 1 := ⟨bound - 1, by omega⟩
  rw [judge_obj href]
  refine verdict_accepts fun answer hanswer => ?_
  obtain ⟨e, he, rfl⟩ := List.mem_map.1 hanswer
  exact hl n (by omega) e he

/-- A schema rejects what its type does not hold. -/
theorem rejects_of_type {keywords : Json.Entries} {value : Json} {type : SchemaType}
    (href : keywords.attr? "$ref" = none)
    (ht : (.text Assertion.type.text, .str type.text) ∈ keywords)
    (h : type.holds value = false) : Rejects draft resolve (.obj keywords) value := by
  refine ⟨1, fun bound hb => ?_⟩
  obtain ⟨n, rfl⟩ : ∃ n, bound = n + 1 := ⟨bound - 1, by omega⟩
  rw [judge_obj href]
  refine verdict_rejects (List.mem_map.2 ⟨_, ht, ?_⟩)
  rw [judgeEntry_text]
  have htype : SchemaType.ofText? type.text = some type := by cases type <;> decide
  simp only [judgeAssertion, htype, Option.map_some, h]

theorem passes_type {keywords : Json.Entries} {value : Json} {type : SchemaType}
    (h : type.holds value = true) :
    Passes draft resolve keywords .type (.str type.text) value := by
  refine ⟨0, fun bound _ => ?_⟩
  have htype : SchemaType.ofText? type.text = some type := by cases type <;> decide
  simp only [judgeAssertion, htype, Option.map_some, h]

theorem passes_items {keywords : Json.Entries} {schema : Json} {items : List Json}
    (h : ∀ v ∈ items, Accepts draft resolve schema v) :
    Passes draft resolve keywords .items schema (.arr items) := by
  obtain ⟨least, hl⟩ := exists_bound h
  refine ⟨least, fun bound hb => verdict_accepts fun answer hanswer => ?_⟩
  obtain ⟨v, hv, rfl⟩ := List.mem_map.1 hanswer
  exact hl bound hb v hv

/-- Each property that has a schema is accepted by it. -/
theorem passes_properties {keywords table entries : Json.Entries}
    (h : ∀ e ∈ entries, ∀ schema, get? e.1 table = some schema →
      Accepts draft resolve schema e.2) :
    Passes draft resolve keywords .properties (.obj table) (.obj entries) := by
  have hentries : ∀ e ∈ entries, ∃ least, ∀ bound, least ≤ bound → ∀ schema,
      get? e.1 table = some schema → judge draft resolve bound schema e.2 = some true := by
    intro e he
    cases hg : get? e.1 table with
    | none => exact ⟨0, fun _ _ _ hc => by cases hc⟩
    | some schema =>
      obtain ⟨least, hl⟩ := h e he schema hg
      refine ⟨least, fun bound hb other ho => ?_⟩
      cases ho
      exact hl bound hb
  obtain ⟨least, hl⟩ := exists_bound hentries
  refine ⟨least, fun bound hb => verdict_accepts fun answer hanswer => ?_⟩
  obtain ⟨e, he, rfl⟩ := List.mem_map.1 hanswer
  have haccepts := hl bound hb e he
  split
  · rename_i schema hs
    exact haccepts schema hs
  · rfl

/-- Each property without a schema of its own is accepted by the schema for those. -/
theorem passes_additionalProperties {keywords entries : Json.Entries} {schema : Json}
    (h : ∀ e ∈ entries, (properties keywords).has e.1 = false → Accepts draft resolve schema e.2) :
    Passes draft resolve keywords .additionalProperties schema (.obj entries) := by
  have hentries : ∀ e ∈ entries, ∃ least, ∀ bound, least ≤ bound →
      (properties keywords).has e.1 = false → judge draft resolve bound schema e.2 = some true := by
    intro e he
    cases hh : (properties keywords).has e.1 with
    | true => exact ⟨0, fun _ _ hc => by cases hc⟩
    | false =>
      obtain ⟨least, hl⟩ := h e he hh
      exact ⟨least, fun bound hb _ => hl bound hb⟩
  obtain ⟨least, hl⟩ := exists_bound hentries
  refine ⟨least, fun bound hb => verdict_accepts fun answer hanswer => ?_⟩
  obtain ⟨e, he, rfl⟩ := List.mem_map.1 hanswer
  have haccepts := hl bound hb e he
  split
  · rfl
  · rename_i hh
    exact haccepts (by simpa using hh)

theorem passes_required {keywords entries : Json.Entries} {names : List Json}
    (h : ∀ n ∈ names, isPresent entries n = true) :
    Passes draft resolve keywords .required (.arr names) (.obj entries) := by
  refine ⟨0, fun bound _ => ?_⟩
  have hall : names.all (isPresent entries) = true := List.all_eq_true.2 h
  simp only [judgeAssertion, hall]

/-- A choice accepts what one of its branches accepts and all others reject. -/
theorem passes_oneOf {keywords : Json.Entries} {before after : List Json} {schema value : Json}
    (h : Accepts draft resolve schema value)
    (hothers : ∀ j ∈ before ++ after, Rejects draft resolve j value) :
    Passes draft resolve keywords .oneOf (.arr (before ++ schema :: after)) value := by
  obtain ⟨first, hf⟩ := h
  obtain ⟨least, hl⟩ := exists_bound hothers
  refine ⟨max first least, fun bound hb => ?_⟩
  have hchosen := hf bound (by omega)
  simp only [judgeAssertion, List.map_append, List.map_cons, hchosen]
  refine choice_accepts fun answer hanswer => ?_
  rw [← List.map_append] at hanswer
  obtain ⟨j, hj, rfl⟩ := List.mem_map.1 hanswer
  exact hl bound (by omega) j hj

/-- A reference judges as what it leads to. -/
theorem judge_reference {r : Text} {target : Json} (h : resolve r = some target) (bound : Nat)
    (value : Json) :
    judge draft resolve (bound + 1) (.obj [(.text Assertion.reference.text, .str r)]) value
      = verdict [judge draft resolve bound target value] := by
  have heffective : effective draft [(.text Assertion.reference.text, .str r)]
      = [(.text Assertion.reference.text, .str r)] := by
    cases draft <;> rfl
  rw [judge, heffective]
  simp only [List.map_cons, List.map_nil, judgeEntry_text, judgeAssertion, h, Option.bind_some]

theorem accepts_reference {r : Text} {target value : Json} (hr : resolve r = some target)
    (h : Accepts draft resolve target value) :
    Accepts draft resolve (.obj [(.text Assertion.reference.text, .str r)]) value := by
  obtain ⟨least, hl⟩ := h
  refine ⟨least + 1, fun bound hb => ?_⟩
  obtain ⟨n, rfl⟩ : ∃ n, bound = n + 1 := ⟨bound - 1, by omega⟩
  rw [judge_reference hr, hl n (by omega)]
  rfl

theorem rejects_reference {r : Text} {target value : Json} (hr : resolve r = some target)
    (h : Rejects draft resolve target value) :
    Rejects draft resolve (.obj [(.text Assertion.reference.text, .str r)]) value := by
  obtain ⟨least, hl⟩ := h
  refine ⟨least + 1, fun bound hb => ?_⟩
  obtain ⟨n, rfl⟩ : ∃ n, bound = n + 1 := ⟨bound - 1, by omega⟩
  rw [judge_reference hr, hl n (by omega)]
  rfl

end JsonSchema

end AvroJsonSchema
