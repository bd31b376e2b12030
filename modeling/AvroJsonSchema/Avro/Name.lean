import AvroJsonSchema.Fault

/-!
# Names and namespaces

A full name is a namespace, a dot and a local name.  A name with a dot is full as it stands; any
other takes the namespace that its definition states or else the enclosing one.

* **`Name.namespaceOf`**, **`Name.localOf`**: the two parts of a full name.
* **`Name.qualify`**: a reference within a namespace.
* **`Name.ofNamed`**: the full name of a definition whose name is a text.
* **`Name.full`**: the full name of any schema value.
-/

namespace AvroJsonSchema

namespace Name

/-- The part of a text before its last dot; nothing if it has none. -/
def namespaceOf (t : Text) : Text :=
  (t.reverse.dropWhile (· ≠ Text.dot)).tail.reverse

/-- The part of a text after its last dot; all of it if it has none. -/
def localOf (t : Text) : Text :=
  (t.reverse.takeWhile (· ≠ Text.dot)).reverse

/-- A namespace and a name with a dot between them; the name alone if there is no namespace. -/
def join (space name : Text) : Text :=
  if space.isEmpty then name else space ++ Text.dot :: name

/-- The full name that a name stands for within a namespace. -/
def qualify (name enclosing : Text) : Text :=
  if name.isDotted then name else join enclosing name

/-- The namespace that a definition states, or else the enclosing one; an empty one and a value
that counts as false mean none. -/
def statedNamespace (attributes : Json.Entries) (enclosing : Text) : Except Fault Text :=
  match attributes.attr? "namespace" with
  | none => .ok enclosing
  | some (.str t) => .ok t
  | some j => if j.isTruthy then .error (.unusableNamespace j) else .ok []

/-- The full name of a definition under a name. -/
def ofNamed (name : Text) (attributes : Json.Entries) (enclosing : Text) : Except Fault Text :=
  if name.isDotted then .ok name
  else (statedNamespace attributes enclosing).map (join · name)

/-- A name that is no text has a dot if it holds the text of one dot among its items or keys. -/
def isDottedValue : Json → Except Fault Bool
  | .str t => .ok t.isDotted
  | .arr items => .ok (items.any fun
    | .str t => t = [Text.dot]
    | _ => false)
  | .obj entries => .ok (Json.Entries.attr? [Text.dot] entries).isSome
  | j => .error (.unsearchableName j)

/-- The full name of a definition whose name may be any value. -/
def ofDefinition (attributes : Json.Entries) (enclosing : Text) : Except Fault Json :=
  match (attributes.attr? "name").getD (.str []) with
  | .str name => (ofNamed name attributes enclosing).map .str
  | name => do
    if ← isDottedValue name then pure name
    else
      let space ← statedNamespace attributes enclosing
      if space.isEmpty then pure name else .error (.unqualifiableName name)

/-- The full name of a schema: a reference by name or a definition. -/
def full (schema : Json) (enclosing : Text) : Except Fault Json :=
  match schema with
  | .str name => .ok (.str (qualify name enclosing))
  | .obj attributes => ofDefinition attributes enclosing
  | j => .error (.unusableReference j)

end Name

end AvroJsonSchema
