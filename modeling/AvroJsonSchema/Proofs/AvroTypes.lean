import AvroJsonSchema.Proofs.Walk

/-!
# Types and their data

A schema means a type: its names stand for the types that they mean where they are written, and
nothing is left of wrappers, docs and namespaces.  A name of a record stays a name, since records may
be recursive; a name of an enum or of a fixed type is that type.  The data of a type are JSON trees:
the value of a union is the value of its branch, and bytes are a text.  The ranges of numbers and the
sizes of octets are not looked at, so there are more data here than in Avro.

* **`AvroType`**, **`AvroType.read`**: a type and the type that a node of a schema means.
* **`AvroType.Distinguishable`**: fields differ by their names, members of unions by their families.
* **`Datum`**: a JSON tree is a datum of a type.
-/

namespace AvroJsonSchema

/-- A type.  The symbols of an enum are texts; a reference is the full name of a record. -/
inductive AvroType where
  | primitive (p : Primitive)
  | array (items : AvroType)
  | map (values : AvroType)
  | union (members : List AvroType)
  | record (name : Text) (fields : List (Json.Key × AvroType))
  | enum (name : Text) (symbols : List Json)
  | fixed (name : Text)
  | reference (name : Text)

/-- What JSON values are told apart by. -/
inductive Family where
  | null | boolean | numeric | textual | array | object
deriving DecidableEq

/-- The family of the data of a primitive type. -/
def Primitive.family : Primitive → Family
  | .null => .null
  | .boolean => .boolean
  | .int => .numeric
  | .long => .numeric
  | .float => .numeric
  | .double => .numeric
  | .bytes => .textual
  | .string => .textual

/-- The family of a value. -/
def Json.family : Json → Family
  | .null => .null
  | .bool _ => .boolean
  | .int _ => .numeric
  | .float _ => .numeric
  | .str _ => .textual
  | .arr _ => .array
  | .obj _ => .object

namespace AvroType

/-- The family of the data of a type; a union has none of its own. -/
def family? : AvroType → Option Family
  | .primitive p => some p.family
  | .array _ => some .array
  | .map _ => some .object
  | .union _ => none
  | .record _ _ => some .object
  | .enum _ _ => some .textual
  | .fixed _ => some .textual
  | .reference _ => some .object

/-- Null is a datum of a type: the type is null or a union with null as a member. -/
def AdmitsNull : AvroType → Prop
  | .primitive p => p = .null
  | .union members => .primitive .null ∈ members
  | _ => False

/-- A type stands somewhere in another one, or is it. -/
inductive Within : AvroType → AvroType → Prop
  | self (t : AvroType) : Within t t
  | items {s t : AvroType} : Within s t → Within s (.array t)
  | values {s t : AvroType} : Within s t → Within s (.map t)
  | member {s t : AvroType} {members : List AvroType} :
      t ∈ members → Within s t → Within s (.union members)
  | field {s t : AvroType} {key : Json.Key} {name : Text} {fields : List (Json.Key × AvroType)} :
      (key, t) ∈ fields → Within s t → Within s (.record name fields)

/-- The names of the fields of a record are different texts; the members of a union are no unions
and of different families. -/
def Distinct : AvroType → Prop
  | .record _ fields => (∀ f ∈ fields, ∃ t, f.1 = .text t) ∧ (fields.map Prod.fst).Nodup
  | .union members => (∀ t ∈ members, t.family? ≠ none)
      ∧ members.Pairwise fun s t => s.family? ≠ t.family?
  | _ => True

/-- The records and the unions of a type tell their fields and their members apart. -/
def Distinguishable (t : AvroType) : Prop :=
  ∀ s, Within s t → s.Distinct

theorem Within.trans {r s t : AvroType} (h : Within r s) (h' : Within s t) : Within r t := by
  induction h' with
  | self => exact h
  | items _ ih => exact .items ih
  | values _ ih => exact .values ih
  | member hm _ ih => exact .member hm ih
  | field hf _ ih => exact .field hf ih

/-- What stands in a distinguishable type is distinguishable. -/
theorem Distinguishable.of_within {s t : AvroType} (h : t.Distinguishable) (hs : Within s t) :
    s.Distinguishable :=
  fun _ hr => h _ (hr.trans hs)

end AvroType

/-! ### Data -/

/-- The keys of an object are different texts. -/
def Json.Entries.TextKeyed (entries : Json.Entries) : Prop :=
  (∀ e ∈ entries, ∃ t, e.1 = .text t) ∧ entries.keys.Nodup

/-- A number is neither infinite nor not a number. -/
def Binary64.isFinite : Binary64 → Bool
  | .finite _ _ _ _ => true
  | _ => false

/-- A JSON tree is a datum of a type, where the records that references lead to stand in a whole
type.  A field that admits null may be left out. -/
inductive Datum (whole : AvroType) : AvroType → Json → Prop
  | null : Datum whole (.primitive .null) .null
  | boolean (b : Bool) : Datum whole (.primitive .boolean) (.bool b)
  | int {p : Primitive} (n : Int) : p.family = .numeric → Datum whole (.primitive p) (.int n)
  | float {p : Primitive} {x : Binary64} :
      p = .float ∨ p = .double → x.isFinite = true → Datum whole (.primitive p) (.float x)
  | text {p : Primitive} (t : Text) : p.family = .textual → Datum whole (.primitive p) (.str t)
  | array {t : AvroType} {items : List Json} :
      (∀ v ∈ items, Datum whole t v) → Datum whole (.array t) (.arr items)
  | map {t : AvroType} {entries : Json.Entries} :
      entries.TextKeyed → (∀ e ∈ entries, Datum whole t e.2) → Datum whole (.map t) (.obj entries)
  | union {t : AvroType} {members : List AvroType} {v : Json} :
      t ∈ members → Datum whole t v → Datum whole (.union members) v
  | record {name : Text} {fields : List (Json.Key × AvroType)} {entries : Json.Entries} :
      entries.TextKeyed → (∀ e ∈ entries, ∃ t, (e.1, t) ∈ fields) →
      (∀ key t v, (key, t) ∈ fields → (key, v) ∈ entries → Datum whole t v) →
      (∀ f ∈ fields, f.1 ∈ entries.keys ∨ f.2.AdmitsNull) →
      Datum whole (.record name fields) (.obj entries)
  | symbol {name : Text} {symbols : List Json} {t : Text} :
      .str t ∈ symbols → Datum whole (.enum name symbols) (.str t)
  | fixed {name : Text} (t : Text) : Datum whole (.fixed name) (.str t)
  | reference {name : Text} {fields : List (Json.Key × AvroType)} {v : Json} :
      AvroType.Within (.record name fields) whole → Datum whole (.record name fields) v →
      Datum whole (.reference name) v

/-- A datum has the family of its type. -/
theorem Datum.family {whole t : AvroType} {v : Json} (h : Datum whole t v)
    (ht : t.family? ≠ none) : t.family? = some v.family := by
  cases h with
  | int n hp => simp [AvroType.family?, Json.family, hp]
  | float hp _ => rcases hp with rfl | rfl <;> rfl
  | text t hp => simp [AvroType.family?, Json.family, hp]
  | union _ _ => exact absurd rfl ht
  | reference _ hd =>
    cases hd with
    | record _ _ _ _ => rfl
  | _ => rfl

/-! ### The type that a node means -/

/-- What a full name stands for. -/
inductive NamedType where
  | record
  | enum (symbols : List Json)
  | fixed

namespace NamedType

/-- The type of a full name. -/
def type (qualified : Text) : NamedType → AvroType
  | .record => .reference qualified
  | .enum symbols => .enum qualified symbols
  | .fixed => .fixed qualified

/-- What an enum or a fixed type stands for. -/
def ofLeaf? (kind : Leaf) (attributes : Json.Entries) : Option NamedType :=
  match kind with
  | .enum => ((attributes.attr? "symbols").bind Keywords.symbols?).map .enum
  | .fixed => some .fixed

end NamedType

/-- What the full names that have been defined so far stand for, and which records have been
entered. -/
structure Scope where
  meanings : Table Text NamedType
  records : List Text

namespace Scope

/-- Nothing defined yet. -/
def empty : Scope := ⟨[], []⟩

/-- The scope after an enum or a fixed type has been defined.  It does not take the name of a record
away. -/
def define (name : Text) (meaning : NamedType) (scope : Scope) : Scope :=
  if scope.records.contains name then scope
  else { scope with meanings := scope.meanings.set name meaning }

/-- The scope after a record has been entered. -/
def enter (name : Text) (scope : Scope) : Scope where
  meanings := scope.meanings.set name .record
  records := scope.records ++ [name]

/-- What a name means within a namespace: a primitive type, or the type of the first of its full
names that is defined. -/
def meaning? (scope : Scope) (name enclosing : Text) : Option AvroType :=
  match Primitive.ofText? name with
  | some p => some (.primitive p)
  | none => (Context.candidates name enclosing).findSome? fun qualified =>
    (scope.meanings.get? qualified).map (·.type qualified)

end Scope

namespace AvroType

mutual

/-- The type that a node means within a namespace, and the scope after it.  A record that repeats the
full name of one that has been entered means that one. -/
def read (schema : Json) (enclosing : Text) (scope : Scope) : Option (AvroType × Scope) :=
  match h : Schema.shape schema with
  | .malformed _ => none
  | .union members =>
    have : schema.size = Json.sizeOfItems members + 1 := by
      rw [Schema.eq_arr_of_shape h, Json.size]
    (readMembers members enclosing scope).map fun r => (.union r.1, r.2)
  | .name name => (scope.meaning? name enclosing).map (·, scope)
  | .wrapper inner =>
    have := Schema.size_lt_of_wrapper h
    read inner enclosing scope
  | .primitive p _ => some (.primitive p, scope)
  | .leaf kind name attributes => do
    let qualified ← (Name.ofNamed name attributes enclosing).toOption
    let meaning ← NamedType.ofLeaf? kind attributes
    pure (meaning.type qualified,
      if qualified.isEmpty then scope else scope.define qualified meaning)
  | .array items _ =>
    have := Schema.size_lt_of_array h
    (read items enclosing scope).map fun r => (.array r.1, r.2)
  | .map values _ =>
    have := Schema.size_lt_of_map h
    (read values enclosing scope).map fun r => (.map r.1, r.2)
  | .reference name _ => (scope.meaning? name enclosing).map (·, scope)
  | .record name attributes => do
    have hs := Schema.eq_obj_of_record h
    let qualified ← (Name.ofNamed name attributes enclosing).toOption
    if scope.records.contains qualified then pure (.reference qualified, scope)
    else
      let list ← (Conversion.fieldList qualified attributes).toOption
      have : Json.sizeOfItems list.1 < schema.size := hs ▸ list.2
      let (fields, scope) ← readFields qualified list.1 (scope.enter qualified)
      pure (.record qualified fields, scope)
termination_by 2 * schema.size

/-- The types that some nodes mean one after the other. -/
def readMembers (nodes : List Json) (enclosing : Text) (scope : Scope) :
    Option (List AvroType × Scope) :=
  match nodes with
  | [] => some ([], scope)
  | j :: js => do
    have := Json.sizeOfItems_cons j js
    have := Json.size_pos j
    let (first, scope) ← read j enclosing scope
    let (rest, scope) ← readMembers js enclosing scope
    pure (first :: rest, scope)
termination_by 2 * Json.sizeOfItems nodes + 1

/-- The keys and the types of the fields of a record one after the other. -/
def readFields (record : Text) (list : List Json) (scope : Scope) :
    Option (List (Json.Key × AvroType) × Scope) :=
  match list with
  | [] => some ([], scope)
  | field :: more =>
    match h : Conversion.fieldParts record field with
    | .error _ => none
    | .ok (_, name, type) => do
      have := Conversion.size_lt_of_fieldParts h
      have := Json.sizeOfItems_cons field more
      let (type, scope) ← read type (Name.namespaceOf record) scope
      let key ← name.toKey?
      let (rest, scope) ← readFields record more scope
      pure ((key, type) :: rest, scope)
termination_by 2 * Json.sizeOfItems list + 1

end

/-- The type that a whole schema means. -/
def ofSchema? (schema : Json) : Option AvroType :=
  (read schema [] .empty).map Prod.fst

end AvroType

end AvroJsonSchema
