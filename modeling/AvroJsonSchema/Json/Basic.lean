import AvroJsonSchema.Number.Binary64
import AvroJsonSchema.Table
import AvroJsonSchema.Text.Basic

/-!
# JSON trees

Schemas come as JSON trees and documents leave as JSON trees.  Integers have any size and are
apart from the binary numbers; objects keep the order of their entries.  The keys of a text that
is read are texts, but the name of a record field becomes a key of the document as it is, so a key
may also be null, a boolean or a number.  Two such keys are one if they have the same value: the
numbers 1 and 1.0 and the boolean true are one key, the text 1 is another.

* **`Json`**: a tree.  **`Json.Key`**: a key of an object.  **`Json.Entries`**: what an object
  holds.
* **`Key.same`**: when two keys are one.
* **`Entries.attr?`**, **`Entries.put`**: the attributes of an object, by their names.
* **`Json.size`**: the count of nodes, by which the recursions over a tree end.
-/

namespace AvroJsonSchema

namespace Json

/-- A key of an object. -/
inductive Key where
  | text (t : Text)
  | null
  | bool (b : Bool)
  | int (n : Int)
  | float (x : Binary64)
deriving DecidableEq

namespace Key

instance : Coe Text Key := ⟨.text⟩

instance : Coe String Key := ⟨fun s => .text (Text.ofString s)⟩

/-- A key as the integer that a boolean counts as or that it is. -/
def asInt? : Key → Option Int
  | .bool b => some (if b then 1 else 0)
  | .int n => some n
  | _ => none

/-- Whether two keys stand for one value. -/
def same (a b : Key) : Bool :=
  match a.asInt?, b.asInt? with
  | some m, some n => m = n
  | some m, none => match b with
    | .float y => y.sameInt m
    | _ => false
  | none, some n => match a with
    | .float x => x.sameInt n
    | _ => false
  | none, none => match a, b with
    | .text s, .text t => s = t
    | .null, .null => true
    | .float x, .float y => x.same y
    | _, _ => false

instance : BEq Key := ⟨same⟩

end Key

end Json

/-- A JSON tree. -/
inductive Json where
  | null
  | bool (b : Bool)
  | int (n : Int)
  | float (x : Binary64)
  | str (t : Text)
  | arr (items : List Json)
  | obj (entries : List (Json.Key × Json))

namespace Json

/-- What an object holds. -/
abbrev Entries := Table Key Json

instance : Inhabited Json := ⟨.null⟩

instance : Coe Text Json := ⟨.str⟩

instance : Coe String Json := ⟨fun s => .str (Text.ofString s)⟩

mutual

/-- The count of nodes of a tree. -/
def size : Json → Nat
  | .arr items => sizeOfItems items + 1
  | .obj entries => sizeOfEntries entries + 1
  | _ => 1

/-- The count of nodes of some trees. -/
def sizeOfItems : List Json → Nat
  | [] => 0
  | j :: js => j.size + sizeOfItems js

/-- The count of nodes of the values of an object. -/
def sizeOfEntries : List (Key × Json) → Nat
  | [] => 0
  | (_, j) :: es => j.size + sizeOfEntries es

end

theorem size_pos (j : Json) : 0 < j.size := by
  cases j <;> simp [size]

theorem sizeOfItems_cons (j : Json) (js : List Json) :
    sizeOfItems (j :: js) = j.size + sizeOfItems js := by
  rw [sizeOfItems]

theorem size_le_sizeOfItems {j : Json} {js : List Json} (h : j ∈ js) :
    j.size ≤ sizeOfItems js := by
  induction js with
  | nil => cases h
  | cons i js ih =>
    cases h with
    | head => simp [sizeOfItems]
    | tail _ h => have := ih h; simp only [sizeOfItems]; omega

theorem size_le_sizeOfEntries {k : Key} {j : Json} {es : List (Key × Json)} (h : (k, j) ∈ es) :
    j.size ≤ sizeOfEntries es := by
  induction es with
  | nil => cases h
  | cons e es ih =>
    cases h with
    | head => simp [sizeOfEntries]
    | tail _ h => have := ih h; simp only [sizeOfEntries]; omega

/-- What is found under a key of an object is smaller than the object. -/
theorem size_lt_of_get? {k : Key} {j : Json} {es : Entries} (h : es.get? k = some j) :
    j.size < (Json.obj es).size := by
  obtain ⟨k', hm⟩ := Table.mem_of_get? h
  have := size_le_sizeOfEntries hm
  simp only [size]
  omega

namespace Entries

/-- The value of an attribute. -/
def attr? (name : Text) (entries : Entries) : Option Json :=
  Table.get? (.text name) entries

/-- Gives an attribute a value. -/
def put (name : Text) (value : Json) (entries : Entries) : Entries :=
  Table.set (.text name) value entries

/-- Gives an attribute a value unless it has one. -/
def putIfAbsent (name : Text) (value : Json) (entries : Entries) : Entries :=
  Table.setIfAbsent (.text name) value entries

end Entries

/-- What is found under an attribute of an object is smaller than the object. -/
theorem size_lt_of_attr? {name : Text} {j : Json} {es : Entries} (h : es.attr? name = some j) :
    j.size < (Json.obj es).size :=
  size_lt_of_get? h

/-- Whether a value counts as true where a condition is asked: null, false, zero and what is
empty do not. -/
def isTruthy : Json → Bool
  | .null => false
  | .bool b => b
  | .int n => n ≠ 0
  | .float x => !x.isZero
  | .str t => !t.isEmpty
  | .arr items => !items.isEmpty
  | .obj entries => !entries.isEmpty

/-- What a message calls the kind of a value. -/
def kindName : Json → Text
  | .null => "NoneType"
  | .bool _ => "bool"
  | .int _ => "int"
  | .float _ => "float"
  | .str _ => "str"
  | .arr _ => "list"
  | .obj _ => "dict"

/-- The key that a value is used as; a list or an object is none. -/
def toKey? : Json → Option Key
  | .null => some .null
  | .bool b => some (.bool b)
  | .int n => some (.int n)
  | .float x => some (.float x)
  | .str t => some (.text t)
  | .arr _ => none
  | .obj _ => none

/-- The value that a key stands for. -/
def ofKey : Key → Json
  | .text t => .str t
  | .null => .null
  | .bool b => .bool b
  | .int n => .int n
  | .float x => .float x

end Json

end AvroJsonSchema
