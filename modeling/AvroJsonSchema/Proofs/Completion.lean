import AvroJsonSchema.Proofs.Kinds

/-!
# The order of the definitions

The definitions table is written record by record, each when it is left.  Its keys can be told
without a conversion: a walk through the schema that knows nothing but the namespace around it and
the records met so far finds each record where it first occurs, together with those that first occur
in its fields.  What a conversion has entered is this forest read from the front, and what it has
defined is the forest read with every record after those inside it.

* **`Encounters`**: the records of a schema where they are first met.  **`Encounters.entered`**,
  **`Encounters.completed`**: the two orders of them.
* **`Naming.fullName`**, **`Naming.innerSpace`**: the naming rule, said of the attributes of an object.
* **`Encounters.ofNode`**: the walk.
* **`Conversion.follows_node`**: a conversion that ends well follows the walk.
* **`Document.definitions_in_order_of_completion`**: the keys of the definitions table.
-/

namespace AvroJsonSchema

open Schema

/-- Records in the order they are first met, each with those that are first met in its fields. -/
inductive Encounters where
  | nothing
  /-- A record, the records inside it, and the records after it. -/
  | record (name : Text) (inside after : Encounters)

namespace Encounters

/-- Some records, then others. -/
def append : Encounters → Encounters → Encounters
  | nothing, later => later
  | record name inside after, later => record name inside (after.append later)

/-- The records in the order they are met. -/
def entered : Encounters → List Text
  | nothing => []
  | record name inside after => name :: (inside.entered ++ after.entered)

/-- The records in the order they are completed: each after those inside it. -/
def completed : Encounters → List Text
  | nothing => []
  | record name inside after => inside.completed ++ name :: after.completed

theorem append_nothing (e : Encounters) : e.append nothing = e := by
  induction e with
  | nothing => rfl
  | record name inside after _ ih =>
    show record name inside (after.append nothing) = _
    rw [ih]

theorem entered_append (e later : Encounters) :
    (e.append later).entered = e.entered ++ later.entered := by
  induction e with
  | nothing => rfl
  | record name inside after _ ih =>
    show name :: (inside.entered ++ (after.append later).entered) = _
    rw [ih, ← List.append_assoc]
    rfl

theorem completed_append (e later : Encounters) :
    (e.append later).completed = e.completed ++ later.completed := by
  induction e with
  | nothing => rfl
  | record name inside after _ ih =>
    show inside.completed ++ name :: (after.append later).completed = _
    rw [ih]
    show _ = (inside.completed ++ name :: after.completed) ++ later.completed
    rw [List.append_assoc, List.cons_append]

/-- A record stands among some encounters, with those inside it and the names that are met once it
has been completed. -/
inductive Holds (name : Text) (inside : Encounters) : List Text → Encounters → Prop
  | here (after : Encounters) : Holds name inside after.entered (record name inside after)
  | within {later : List Text} {around : Text} {e after : Encounters} :
      Holds name inside later e → Holds name inside (later ++ after.entered) (record around e after)
  | behind {later : List Text} {before : Text} {e after : Encounters} :
      Holds name inside later after → Holds name inside later (record before e after)

/-- What is completed has been met. -/
theorem mem_completed {e : Encounters} {q : Text} : q ∈ e.completed ↔ q ∈ e.entered := by
  induction e with
  | nothing => rfl
  | record name inside after ihi iha =>
    simp only [completed, entered, List.mem_append, List.mem_cons, ihi, iha]
    exact or_left_comm

/-- A record is met before those inside it, and these before all later ones. -/
theorem Holds.entered_split {name : Text} {inside e : Encounters} {later : List Text}
    (h : Holds name inside later e) :
    ∃ earlier, e.entered = earlier ++ name :: (inside.entered ++ later) := by
  induction h with
  | here after => exact ⟨[], rfl⟩
  | within _ ih =>
    rename_i around e after _
    obtain ⟨earlier, he⟩ := ih
    refine ⟨around :: earlier, ?_⟩
    show around :: (e.entered ++ after.entered) = _
    rw [he]
    simp only [List.cons_append, List.append_assoc]
  | behind _ ih =>
    rename_i before e after _
    obtain ⟨earlier, he⟩ := ih
    refine ⟨before :: (e.entered ++ earlier), ?_⟩
    show before :: (e.entered ++ after.entered) = _
    rw [he]
    simp only [List.cons_append, List.append_assoc]

/-- A record is completed right after those inside it, and before all later ones. -/
theorem Holds.completed_split {name : Text} {inside e : Encounters} {later : List Text}
    (h : Holds name inside later e) :
    ∃ before behind, e.completed = before ++ (inside.completed ++ name :: behind)
      ∧ ∀ q ∈ later, q ∈ behind := by
  induction h with
  | here after => exact ⟨[], after.completed, rfl, fun q hq => mem_completed.2 hq⟩
  | within _ ih =>
    rename_i around e after _
    obtain ⟨before, behind, he, hlater⟩ := ih
    refine ⟨before, behind ++ around :: after.completed, ?_, fun q hq => ?_⟩
    · show e.completed ++ around :: after.completed = _
      rw [he]
      simp only [List.cons_append, List.append_assoc]
    · rcases List.mem_append.1 hq with hq | hq
      · exact List.mem_append_left _ (hlater q hq)
      · exact List.mem_append_right _ (List.mem_cons_of_mem _ (mem_completed.2 hq))
  | behind _ ih =>
    rename_i first e after _
    obtain ⟨before, behind, he, hlater⟩ := ih
    refine ⟨e.completed ++ first :: before, behind, ?_, hlater⟩
    show e.completed ++ first :: after.completed = _
    rw [he]
    simp only [List.cons_append, List.append_assoc]

end Encounters

/-! ### The naming rule -/

namespace Naming

/-- The name that an object gives itself. -/
def givenName (attributes : Json.Entries) : Text :=
  match attributes.attr? "name" with
  | some (.str name) => name
  | _ => []

/-- The namespace that an object states, or else the one around it; an empty one and null are
none. -/
def ownSpace (attributes : Json.Entries) (space : Text) : Text :=
  match attributes.attr? "namespace" with
  | none => space
  | some (.str stated) => stated
  | some _ => []

/-- The full name of a definition: its name if that has a dot, else the name within its own
namespace. -/
def fullName (attributes : Json.Entries) (space : Text) : Text :=
  if (givenName attributes).isDotted then givenName attributes
  else
    match ownSpace attributes space with
    | [] => givenName attributes
    | own => own ++ Text.dot :: givenName attributes

/-- The namespace around what stands in a definition: what its name states before the last dot, or
else its own namespace. -/
def innerSpace (attributes : Json.Entries) (space : Text) : Text :=
  if (givenName attributes).isDotted then Name.namespaceOf (givenName attributes)
  else ownSpace attributes space

variable {attributes : Json.Entries} {name space : Text}

theorem ownSpace_of_stated {own : Text} (h : Name.statedNamespace attributes space = .ok own) :
    ownSpace attributes space = own := by
  unfold Name.statedNamespace at h
  unfold ownSpace
  cases hn : Json.Entries.attr? "namespace" attributes with
  | none =>
    rw [hn] at h
    exact Except.ok.inj h
  | some j =>
    rw [hn] at h
    cases j with
    | str stated => exact Except.ok.inj h
    | _ =>
      dsimp only at h ⊢
      split at h
      · cases h
      · exact Except.ok.inj h

/-- Where a definition has a full name, the rule gives this name, and its namespace to what stands
inside. -/
theorem fullName_of_ofNamed {qualified : Text} (hn : attributes.attr? "name" = some (.str name))
    (h : Name.ofNamed name attributes space = .ok qualified) :
    fullName attributes space = qualified
      ∧ innerSpace attributes space = Name.namespaceOf qualified := by
  have hgiven : givenName attributes = name := by
    unfold givenName
    rw [hn]
  by_cases hd : name.isDotted = true
  · rw [Name.ofNamed_of_dotted hd] at h
    cases h
    unfold fullName innerSpace
    rw [hgiven, if_pos hd, if_pos hd]
    exact ⟨rfl, rfl⟩
  · have hundotted : name.isDotted = false := by simpa using hd
    rw [Name.ofNamed_of_undotted hundotted] at h
    cases hs : Name.statedNamespace attributes space with
    | error fault =>
      rw [hs] at h
      cases h
    | ok own =>
      rw [hs] at h
      have hq : Name.join own name = qualified := Except.ok.inj h
      unfold fullName innerSpace
      rw [hgiven, if_neg hd, if_neg hd, ownSpace_of_stated hs, ← hq]
      cases own with
      | nil => exact ⟨rfl, (Name.namespaceOf_of_undotted hundotted).symm⟩
      | cons first rest => exact ⟨rfl, (Name.namespaceOf_join (by simp) hundotted).symm⟩

end Naming

/-! ### The walk -/

namespace Encounters

/-- Whether an object is a record by its type. -/
def isRecord (attributes : Json.Entries) : Bool :=
  match attributes.attr? "type" with
  | some (.str t) => t = Text.ofString "record" || t = Text.ofString "error"
  | _ => false

/-- The one node directly below an object that is no record: the items of an array, the values of a
map, or a type that is itself a list or an object. -/
def held? (attributes : Json.Entries) : Option Json :=
  match attributes.attr? "type" with
  | some (.str t) =>
    if t = Text.ofString "array" then attributes.attr? "items"
    else if t = Text.ofString "map" then attributes.attr? "values"
    else none
  | inner => inner

/-- The type of a field. -/
def fieldType? : Json → Option Json
  | .obj field => Json.Entries.attr? "type" field
  | _ => none

/-- The types of the fields of a record, in order. -/
def fieldTypes (attributes : Json.Entries) : List Json :=
  match attributes.attr? "fields" with
  | some (.arr list) => list.filterMap fieldType?
  | _ => []

theorem size_lt_of_held? {attributes : Json.Entries} {j : Json} (h : held? attributes = some j) :
    j.size < (Json.obj attributes).size := by
  unfold held? at h
  split at h
  · split at h
    · exact Json.size_lt_of_attr? h
    · split at h
      · exact Json.size_lt_of_attr? h
      · cases h
  · exact Json.size_lt_of_attr? h

theorem sizeOfItems_fieldTypes_le (list : List Json) :
    Json.sizeOfItems (list.filterMap fieldType?) ≤ Json.sizeOfItems list := by
  induction list with
  | nil => exact Nat.le_refl _
  | cons field more ih =>
    rw [List.filterMap_cons, Json.sizeOfItems_cons]
    cases ht : fieldType? field with
    | none =>
      dsimp only
      omega
    | some type =>
      have hlt : type.size < field.size := by
        cases field with
        | obj es => exact Json.size_lt_of_attr? ht
        | _ => cases ht
      dsimp only
      rw [Json.sizeOfItems_cons]
      omega

theorem sizeOfItems_fieldTypes_lt (attributes : Json.Entries) :
    Json.sizeOfItems (fieldTypes attributes) < (Json.obj attributes).size := by
  unfold fieldTypes
  split
  · rename_i list hl
    have hlist := Json.size_lt_of_attr? hl
    have hle := sizeOfItems_fieldTypes_le list
    rw [Json.size] at hlist
    omega
  · exact Json.size_pos _

mutual

/-- The records that are first met in a node within a namespace, after some that have been met
before. -/
def ofNode (schema : Json) (space : Text) (met : List Text) : Encounters :=
  match schema with
  | .arr members => ofNodes members space met
  | .obj attributes =>
    if isRecord attributes then
      have := sizeOfItems_fieldTypes_lt attributes
      let name := Naming.fullName attributes space
      if name ∈ met then nothing
      else
        record name
          (ofNodes (fieldTypes attributes) (Naming.innerSpace attributes space) (met ++ [name]))
          nothing
    else
      match h : held? attributes with
      | some inner =>
        have := size_lt_of_held? h
        ofNode inner space met
      | none => nothing
  | _ => nothing
termination_by 2 * schema.size
decreasing_by all_goals simp only [Json.size] at *; omega

/-- The records that are first met in some nodes, one node after the other. -/
def ofNodes (nodes : List Json) (space : Text) (met : List Text) : Encounters :=
  match nodes with
  | [] => nothing
  | j :: js =>
    have := Json.size_pos j
    let first := ofNode j space met
    first.append (ofNodes js space (met ++ first.entered))
termination_by 2 * Json.sizeOfItems nodes + 1
decreasing_by all_goals simp only [Json.sizeOfItems] at *; omega

end

variable {attributes : Json.Entries} {space : Text} {met : List Text}

theorem ofNode_arr (members : List Json) :
    ofNode (.arr members) space met = ofNodes members space met := by
  rw [ofNode]

theorem ofNode_str (t : Text) : ofNode (.str t) space met = nothing := by
  rw [ofNode] <;> simp

theorem ofNode_record (h : isRecord attributes = true) :
    ofNode (.obj attributes) space met =
      if Naming.fullName attributes space ∈ met then nothing
      else
        record (Naming.fullName attributes space)
          (ofNodes (fieldTypes attributes) (Naming.innerSpace attributes space)
            (met ++ [Naming.fullName attributes space]))
          nothing := by
  rw [ofNode, if_pos h]

theorem ofNode_holder {inner : Json} (h : isRecord attributes = false)
    (hi : held? attributes = some inner) :
    ofNode (.obj attributes) space met = ofNode inner space met := by
  rw [ofNode, h, if_neg Bool.false_ne_true]
  split
  · rename_i hj
    cases hi.symm.trans hj
    rfl
  · rename_i hj
    cases hi.symm.trans hj

theorem ofNode_plain (h : isRecord attributes = false) (hi : held? attributes = none) :
    ofNode (.obj attributes) space met = nothing := by
  rw [ofNode, h, if_neg Bool.false_ne_true]
  split
  · rename_i hj
    rw [hi] at hj
    cases hj
  · rfl

theorem ofNodes_nil : ofNodes [] space met = nothing := by
  rw [ofNodes]

theorem ofNodes_cons (j : Json) (js : List Json) :
    ofNodes (j :: js) space met =
      (ofNode j space met).append (ofNodes js space (met ++ (ofNode j space met).entered)) := by
  rw [ofNodes]

/-! ### What the walk sees of a shape -/

/-- What the walk sees of an object of some shape. -/
def Sees (attributes : Json.Entries) : Shape → Prop
  | .record _ _ => isRecord attributes = true
  | .wrapper inner => isRecord attributes = false ∧ held? attributes = some inner
  | .array items _ => isRecord attributes = false ∧ held? attributes = some items
  | .map values _ => isRecord attributes = false ∧ held? attributes = some values
  | .malformed _ => True
  | _ => isRecord attributes = false ∧ held? attributes = none

theorem isRecord_of_type {t : Text} (h : attributes.attr? "type" = some (.str t)) :
    isRecord attributes = (t = Text.ofString "record" || t = Text.ofString "error" : Bool) := by
  unfold isRecord
  rw [h]

theorem held?_of_type {t : Text} (h : attributes.attr? "type" = some (.str t)) :
    held? attributes =
      if t = Text.ofString "array" then attributes.attr? "items"
      else if t = Text.ofString "map" then attributes.attr? "values"
      else none := by
  unfold held?
  rw [h]

/-- The walk sees nothing in an object whose type is no complex one. -/
theorem plain_of_type {t : Text} (h : attributes.attr? "type" = some (.str t))
    (ht : ∀ c : Complex, t ≠ c.text) :
    isRecord attributes = false ∧ held? attributes = none := by
  have hrecord : ¬t = Text.ofString "record" := ht .record
  have herror : ¬t = Text.ofString "error" := ht .error
  have harray : ¬t = Text.ofString "array" := ht .array
  have hmap : ¬t = Text.ofString "map" := ht .map
  rw [isRecord_of_type h, held?_of_type h, if_neg harray, if_neg hmap]
  simp only [hrecord, herror, decide_false, Bool.or_self, and_self]

theorem sees_complexShape {c : Complex} (h : attributes.attr? "type" = some (.str c.text)) :
    Sees attributes (complexShape c attributes) := by
  have named : ∀ build : Text → Shape, (∀ name, Sees attributes (build name)) →
      Sees attributes (namedShape c attributes build) := by
    intro build hb
    rcases namedShape_eq c attributes build with ⟨name, hs⟩ | ⟨fault, hs⟩
    · exact hs ▸ hb name
    · rw [hs]; trivial
  have contained : ∀ (holder : Text) (build : Json → Shape),
      (∀ j, attributes.attr? holder = some j → Sees attributes (build j)) →
      Sees attributes (containerShape attributes holder build) := by
    intro holder build hb
    rcases containerShape_eq attributes holder build with ⟨j, hj, hs⟩ | ⟨fault, hs⟩
    · exact hs ▸ hb j hj
    · rw [hs]; trivial
  have hrecord := isRecord_of_type h
  have hheld := held?_of_type h
  cases c with
  | record => exact named _ fun _ => hrecord
  | error => exact named _ fun _ => hrecord
  | enum => exact named _ fun _ => ⟨hrecord, hheld⟩
  | fixed => exact named _ fun _ => ⟨hrecord, hheld⟩
  | array => exact contained _ _ fun _ hj => ⟨hrecord, hheld.trans hj⟩
  | map => exact contained _ _ fun _ hj => ⟨hrecord, hheld.trans hj⟩

/-- The walk sees of an object what its shape says. -/
theorem sees_objectShape (attributes : Json.Entries) : Sees attributes (objectShape attributes) := by
  unfold objectShape
  split
  · trivial
  · rename_i members h
    exact ⟨by unfold isRecord; rw [h], by unfold held?; rw [h]⟩
  · rename_i inner h
    exact ⟨by unfold isRecord; rw [h], by unfold held?; rw [h]⟩
  · rename_i t h
    split
    · rename_i p hp
      refine plain_of_type h fun c hc => ?_
      rw [hc, ofText_text_complex] at hp
      cases hp
    · rename_i c hc
      rw [ofText_complex hc] at h
      exact sees_complexShape h
    · rename_i name hn
      refine plain_of_type h fun c hc => ?_
      rw [hc, ofText_text_complex] at hn
      cases hn
  · trivial

/-- What the walk makes of a node of some shape. -/
def Walks (space : Text) (met : List Text) (e : Encounters) : Shape → Prop
  | .union members => e = ofNodes members space met
  | .wrapper inner => e = ofNode inner space met
  | .array items _ => e = ofNode items space met
  | .map values _ => e = ofNode values space met
  | .record _ attributes =>
    e = if Naming.fullName attributes space ∈ met then nothing
      else
        record (Naming.fullName attributes space)
          (ofNodes (fieldTypes attributes) (Naming.innerSpace attributes space)
            (met ++ [Naming.fullName attributes space]))
          nothing
  | .malformed _ => True
  | _ => e = nothing

/-- The walk goes by the shapes of the nodes. -/
theorem walks_shape (schema : Json) (space : Text) (met : List Text) :
    Walks space met (ofNode schema space met) (shape schema) := by
  rcases shape_cases schema with ⟨members, rfl, hs⟩ | ⟨name, rfl, hs⟩ | ⟨f, hs⟩ | ⟨es, rfl, hfits⟩
  · rw [hs]
    exact ofNode_arr members
  · rw [hs]
    exact ofNode_str name
  · rw [hs]
    trivial
  · have hsees : Sees es (shape (.obj es)) := sees_objectShape es
    cases hs : shape (.obj es) <;> rw [hs] at hfits hsees
    case union members => exact hfits.elim
    case name name => exact hfits.elim
    case wrapper inner => exact ofNode_holder hsees.1 hsees.2
    case array items attributes => exact ofNode_holder hsees.1 hsees.2
    case map values attributes => exact ofNode_holder hsees.1 hsees.2
    case record name attributes =>
      obtain rfl : attributes = es := hfits
      exact ofNode_record hsees
    case malformed fault => trivial
    all_goals exact ofNode_plain hsees.1 hsees.2

/-- No record is met in a node of a primitive kind. -/
theorem ofNode_of_primitive_kind {schema : Json} {t : Text} {p : Primitive}
    (h : kind schema = .ok (.str t)) (hp : Primitive.ofText? t = some p) :
    ofNode schema space met = nothing := by
  induction schema using Schema.induction with
  | step schema ih =>
    have hwalk := walks_shape schema space met
    rcases kind_cases h with ⟨_, -, hk⟩ | ⟨rfl, -⟩ | ⟨attributes, rfl, ht, -⟩ | ⟨inner, hs, hk⟩
    · rw [Json.str.inj hk] at hp
      cases hp
    · exact hwalk
    · rw [shape_of_primitive ht hp] at hwalk
      exact hwalk
    · rw [hs] at hwalk
      exact hwalk.trans (ih inner (.inner hs) hk)

end Encounters

/-! ### A conversion follows the walk -/

namespace Context

open Encounters

/-- A context comes out of another one by what is met in some nodes: the records are entered as they
are met, and left as they are completed. -/
structure Follows (c c' : Context) (e : Encounters) : Prop where
  evolves : c.Evolves c' []
  entered : c'.seen = c.seen ++ e.entered
  completed : c'.definitions.keys = c.definitions.keys ++ e.completed

variable {c c' c'' : Context} {e e' : Encounters}

/-- Where nothing is entered and nothing is defined, nothing has been met. -/
theorem Follows.still (h : c.Evolves c' []) (hs : c'.seen = c.seen)
    (hd : c'.definitions = c.definitions) : c.Follows c' .nothing where
  evolves := h
  entered := by rw [hs]; exact (List.append_nil _).symm
  completed := by rw [hd]; exact (List.append_nil _).symm

theorem Follows.trans (h : c.Follows c' e) (h' : c'.Follows c'' e') :
    c.Follows c'' (e.append e') where
  evolves := h.evolves.trans h'.evolves
  entered := by rw [h'.entered, h.entered, entered_append, List.append_assoc]
  completed := by rw [h'.completed, h.completed, completed_append, List.append_assoc]

/-- A record that is entered, and left after its fields, is met before them and completed after
them. -/
theorem Follows.record {q : Text} {attributes : Json.Entries} (hc : c.Sound) (hq : q ∉ c.seen)
    (h : (c.enter q attributes).Follows c' e) (keywords : Json.Entries) :
    c.Follows (c'.define q keywords) (.record q e .nothing) where
  evolves := .of_enter_define hc hq h.evolves
  entered := by
    show c'.seen = c.seen ++ q :: (e.entered ++ [])
    rw [h.entered, List.append_nil]
    exact List.append_assoc _ _ _
  completed := by
    have hnew : q ∉ c'.definitions.keys :=
      h.evolves.not_defined (List.mem_append_right _ List.mem_cons_self)
        fun hd => hq (hc.defined_seen q hd)
    show (c'.definitions.set q keywords).keys = c.definitions.keys ++ (e.completed ++ [q])
    rw [Table.keys_set, if_neg hnew, h.completed]
    exact List.append_assoc _ _ _

end Context

namespace Conversion

open Step Context Encounters

variable {setup : Setup} {enclosing : Text} {c c' : Context}

/-- Wherever a node is converted, a conversion that ends well follows the walk through the node. -/
def FollowsWalk (setup : Setup) (schema : Json) : Prop :=
  ∀ enclosing c c' es, c.Sound → outcome (node setup schema enclosing) c = (.ok es, c') →
    c.Follows c' (ofNode schema enclosing c.seen)

/-- An enum or a fixed type is no record that is met. -/
theorem follows_leaf {options : Options} {kind : Leaf} {name : Text}
    {attributes es : Json.Entries} (hc : c.Sound)
    (hs : objectShape attributes = .leaf kind name attributes)
    (h : outcome (leaf options kind name attributes enclosing) c = (.ok es, c')) :
    c.Follows c' .nothing := by
  have hevolves := (evolving_leaf options hs).of_ok hc h
  obtain ⟨qualified, keywords, -, -, -, rfl⟩ := leaf_ok h
  refine .still hevolves ?_ ?_
  · split <;> rfl
  · split <;> rfl

/-- No record is met where a name stands. -/
theorem follows_typeName {name : Text} {es : Json.Entries} (hc : c.Sound)
    (h : outcome (typeName setup name enclosing) c = (.ok es, c')) : c.Follows c' .nothing := by
  have hevolves := (evolving_typeName name).of_ok hc h
  rcases typeName_ok hc h with ⟨p, -, -, rfl⟩ | ⟨q, -, -, ⟨-, hok⟩ | ⟨-, kind, n, es, -, hs, hok⟩⟩
  · exact .still hevolves rfl rfl
  · rw [outcome_reference] at hok
    cases (Prod.mk.inj hok).2
    exact .still hevolves rfl rfl
  · exact follows_leaf hc hs hok

theorem follows_branches {nodes converted : List Json} (ih : ∀ j ∈ nodes, FollowsWalk setup j)
    (hc : c.Sound) (h : outcome (branches setup nodes enclosing) c = (.ok converted, c')) :
    c.Follows c' (ofNodes nodes enclosing c.seen) := by
  induction nodes generalizing converted c with
  | nil =>
    rw [branches_nil] at h
    cases h
    rw [ofNodes_nil]
    exact .still (.refl hc) rfl rfl
  | cons j js ihs =>
    rw [branches_cons] at h
    obtain ⟨es, c₁, hnode, htail⟩ := bind_ok h
    obtain ⟨rest, hrest, -⟩ := map_ok htail
    have hfirst := ih j List.mem_cons_self _ _ _ _ hc hnode
    have hlater := ihs (fun i hi => ih i (List.mem_cons_of_mem _ hi)) hfirst.evolves.sound hrest
    rw [hfirst.entered] at hlater
    rw [ofNodes_cons]
    exact hfirst.trans hlater

/-- In a union of null and another type, the records are those of the other type. -/
theorem ofNodes_of_nonNull {members rest : List Json} {space : Text} {met : List Text}
    (h : nonNull members = .ok rest) : ofNodes members space met = ofNodes rest space met := by
  induction members generalizing rest met with
  | nil =>
    cases h
    rfl
  | cons j js ih =>
    obtain ⟨k, more, hk, hmore, rfl⟩ := nonNull_cons_ok h
    rw [ofNodes_cons]
    by_cases hnull : isNullKind k = true
    · rw [if_pos hnull]
      rw [eq_null_of_isNullKind hnull] at hk
      have hj : ofNode j space met = .nothing := ofNode_of_primitive_kind hk (p := .null) rfl
      rw [hj]
      show ofNodes js space (met ++ []) = _
      rw [List.append_nil]
      exact ih hmore
    · rw [if_neg hnull, ofNodes_cons, ih hmore]

theorem follows_union {members : List Json} {es : Json.Entries}
    (ih : ∀ j ∈ members, FollowsWalk setup j) (hc : c.Sound)
    (h : outcome (union setup members enclosing) c = (.ok es, c')) :
    c.Follows c' (ofNodes members enclosing c.seen) := by
  cases hu : unionForm members with
  | fault fault =>
    rw [union_of_fault hu] at h
    cases h
  | choice =>
    rw [union_of_choice hu] at h
    obtain ⟨converted, hbranches, -⟩ := map_ok h
    exact follows_branches ih hc hbranches
  | nullable member =>
    have hmember := ih member (mem_of_unionForm hu)
    have hsame : ofNodes members enclosing c.seen = ofNode member enclosing c.seen := by
      rw [ofNodes_of_nonNull (nonNull_of_unionForm hu), ofNodes_cons, ofNodes_nil, append_nothing]
    rw [hsame]
    rw [union_of_nullable hu] at h
    split at h
    · exact hmember _ _ _ _ hc h
    · obtain ⟨k, c₁, hk, hrest⟩ := bind_ok h
      obtain ⟨hkind, rfl⟩ := inspect_ok hk
      split at hrest
      · -- the member is not converted at all: no record can be met in it
        rename_i p hp
        cases hrest
        obtain ⟨t, ht, hprimitive⟩ := kind_of_resolveKind hc hkind hp
        rw [ofNode_of_primitive_kind ht hprimitive]
        exact .still (.refl hc) rfl rfl
      · obtain ⟨branch, c₂, hnode, hpure⟩ := bind_ok hrest
        cases hpure
        exact hmember _ _ _ _ hc hnode

theorem follows_fields {record : Text} {list : List Json} {properties : Json.Entries}
    {required : List Json} {made : Json.Entries × List Json}
    (ih : ∀ field ∈ list, ∀ attributes name type,
      fieldParts record field = .ok (attributes, name, type) → FollowsWalk setup type)
    (hc : c.Sound) (h : outcome (fields setup record list properties required) c = (.ok made, c')) :
    c.Follows c' (ofNodes (list.filterMap fieldType?) (Name.namespaceOf record) c.seen) := by
  induction list generalizing properties required c with
  | nil =>
    rw [fields_nil] at h
    cases h
    rw [List.filterMap_nil, ofNodes_nil]
    exact .still (.refl hc) rfl rfl
  | cons field more ihs =>
    obtain ⟨attributes, name, type, property, nullable, added, c₁, hp, hnode, -, -, hrest⟩ :=
      fields_cons_ok h
    have hfirst := ih field List.mem_cons_self _ _ _ hp _ _ _ _ hc hnode
    have hlater := ihs (fun f hf => ih f (List.mem_cons_of_mem _ hf)) hfirst.evolves.sound hrest
    rw [hfirst.entered] at hlater
    obtain ⟨rfl, -, ht⟩ := fieldParts_ok hp
    have htype : fieldType? (.obj attributes) = some type := ht
    rw [List.filterMap_cons, htype]
    dsimp only
    rw [ofNodes_cons]
    exact hfirst.trans hlater

/-- A record that has been met before is not walked again; any other is met before the records of its
fields. -/
theorem follows_record {schema : Json} {name : Text} {attributes : Json.Entries}
    (hs : shape schema = .record name attributes) (ih : ∀ j, Child j schema → FollowsWalk setup j) :
    FollowsWalk setup schema := by
  intro enclosing c c' es hc h
  obtain ⟨-, hn, -⟩ := isRecord_of_shape hs
  have hevolves := (evolving_node schema enclosing).of_ok hc h
  have hwalk := walks_shape schema enclosing c.seen
  simp only [hs, Walks] at hwalk
  rw [hwalk]
  obtain ⟨q, hq, ⟨hseen, hreference⟩ | ⟨hseen, list, made, c₁, hl, hf, rfl, rfl⟩⟩ := record_ok hs h
  · obtain ⟨hname, -⟩ := Naming.fullName_of_ofNamed hn hq
    rw [hname, if_pos hseen]
    rw [outcome_reference] at hreference
    cases (Prod.mk.inj hreference).2
    exact .still hevolves rfl rfl
  · obtain ⟨hname, hspace⟩ := Naming.fullName_of_ofNamed hn hq
    have hlist := fieldList_ok hl
    have htypes : fieldTypes attributes = list.1.filterMap fieldType? := by
      unfold fieldTypes
      rw [hlist]
    rw [hname, hspace, htypes, if_neg hseen]
    have hfields := follows_fields
      (fun field hfield es n type hp => ih type (child_of_field hs hlist hfield hp))
      (hc.enter (defines_of_record hs hq) hseen) hf
    exact .record hc hseen hfields _

/-- **A conversion that ends well follows the walk**, whatever the node and wherever it stands. -/
theorem follows_node (schema : Json) : FollowsWalk setup schema := by
  induction schema using Schema.induction with
  | step schema ih =>
    intro enclosing c c' es hc h
    have hwalk := walks_shape schema enclosing c.seen
    cases hs : shape schema with
    | malformed fault =>
      rw [node_of_malformed hs] at h
      cases h
    | record name attributes => exact follows_record hs ih _ _ _ _ hc h
    | union members =>
      simp only [hs, Walks] at hwalk
      rw [hwalk]
      rw [node_of_union hs] at h
      exact follows_union (fun j hj => ih j (.member hs hj)) hc h
    | wrapper inner =>
      simp only [hs, Walks] at hwalk
      rw [hwalk]
      rw [node_of_wrapper hs] at h
      exact ih inner (.inner hs) _ _ _ _ hc h
    | array items attributes =>
      simp only [hs, Walks] at hwalk
      rw [hwalk]
      rw [node_of_array hs] at h
      obtain ⟨inner, hi, -⟩ := map_ok h
      exact ih items (.items hs) _ _ _ _ hc hi
    | map values attributes =>
      simp only [hs, Walks] at hwalk
      rw [hwalk]
      rw [node_of_map hs] at h
      obtain ⟨inner, hi, -⟩ := map_ok h
      exact ih values (.values hs) _ _ _ _ hc hi
    | name name =>
      simp only [hs, Walks] at hwalk
      rw [hwalk]
      rw [node_of_name hs] at h
      exact follows_typeName hc h
    | reference name attributes =>
      simp only [hs, Walks] at hwalk
      rw [hwalk]
      rw [node_of_reference hs] at h
      obtain ⟨target, ht, -⟩ := map_ok h
      exact follows_typeName hc ht
    | leaf kind name attributes =>
      obtain ⟨attributes, rfl, rfl⟩ := fits_of_shape hs (by simp) (by simp) (by simp)
      simp only [hs, Walks] at hwalk
      rw [hwalk]
      rw [node_of_leaf hs] at h
      exact follows_leaf hc hs h
    | primitive p attributes =>
      simp only [hs, Walks] at hwalk
      rw [hwalk]
      rw [node_of_primitive hs] at h
      cases h
      exact .still (.refl hc) rfl rfl

end Conversion

namespace Document

open Step Conversion Encounters

/-- A record that is the whole schema comes last. -/
theorem getLast?_completed_ofNode {attributes : Json.Entries} (h : isRecord attributes = true) :
    (ofNode (.obj attributes) [] []).completed.getLast? = some (Naming.fullName attributes []) := by
  rw [ofNode_record h, if_neg List.not_mem_nil]
  exact List.getLast?_concat

/-- **The definitions are in order of completion.**  The keys of the definitions table of a document
are the full names of the records that a walk through the schema meets, each where it first occurs and
each once, in the order in which they are completed: right after those first met in its fields, and
before all that are first met later.  A record that is the whole schema comes last. -/
theorem definitions_in_order_of_completion (options : Options) (schema document : Json)
    (h : ofSchema options schema = .ok document) :
    ∃ root c, run options schema = (.ok root, c)
      ∧ document = .obj ((header options.draft c).merge root)
      ∧ c.definitions.keys = (ofNode schema [] []).completed
      ∧ c.seen = (ofNode schema [] []).entered
      ∧ c.definitions.keys.Nodup
      ∧ (∀ name inside later, Holds name inside later (ofNode schema [] []) →
          (∃ earlier, c.seen = earlier ++ name :: (inside.entered ++ later))
            ∧ ∃ before behind,
              c.definitions.keys = before ++ (inside.completed ++ name :: behind)
                ∧ ∀ q ∈ later, q ∈ behind)
      ∧ ∀ attributes, schema = .obj attributes → isRecord attributes = true →
          c.definitions.keys.getLast? = some (Naming.fullName attributes []) := by
  obtain ⟨root, c, hrun, rfl⟩ := ofSchema_ok h
  have hnode : outcome (node options schema []) Context.empty = (.ok root, c) := hrun
  have hwalk := follows_node schema [] Context.empty c root .empty hnode
  have hkeys : c.definitions.keys = (ofNode schema [] []).completed := hwalk.completed
  have hseen : c.seen = (ofNode schema [] []).entered := hwalk.entered
  refine ⟨root, c, hrun, rfl, hkeys, hseen,
    hwalk.evolves.sound.definitions_nodup, fun name inside later hat => ?_, ?_⟩
  · rw [hkeys, hseen]
    exact ⟨hat.entered_split, hat.completed_split⟩
  · intro attributes hschema hrecord
    rw [hkeys, hschema]
    exact getLast?_completed_ofNode hrecord

/-- An order of a shop.  Its buyer has an address under a dotted name; its seller is in no namespace;
a second definition of the buyer stands for the first one. -/
def shopOrder : Json :=
  .obj [(.text "type", "record"), (.text "name", "Order"), (.text "namespace", "shop"),
    (.text "fields", .arr [
      .obj [(.text "name", "buyer"), (.text "type", .obj [(.text "type", "record"),
        (.text "name", "Person"), (.text "fields", .arr [
          .obj [(.text "name", "home"), (.text "type", .obj [(.text "type", "record"),
            (.text "name", "geo.Address"), (.text "fields", .arr [
              .obj [(.text "name", "at"), (.text "type", .obj [(.text "type", "record"),
                (.text "name", "Point"), (.text "fields", .arr [])])]])])],
          .obj [(.text "name", "friends"), (.text "type", .obj [(.text "type", "array"),
            (.text "items", "Person")])]])])],
      .obj [(.text "name", "seller"), (.text "type", .arr ["null", .obj [(.text "type", "error"),
        (.text "name", "Firm"), (.text "namespace", .null), (.text "fields", .arr [
          .obj [(.text "name", "owner"), (.text "type", .obj [(.text "type", "record"),
            (.text "name", "Person"), (.text "fields", .arr [])])]])]])],
      .obj [(.text "name", "payer"), (.text "type", .obj [(.text "type", "record"),
        (.text "name", "Person"), (.text "fields", .arr [
          .obj [(.text "name", "unseen"), (.text "type", .obj [(.text "type", "record"),
            (.text "name", "Unseen"), (.text "fields", .arr [])])]])])]])]

theorem definitions_in_order_of_completion_shopOrder :
    ∃ document root c, ofSchema Options.strict shopOrder = .ok document
      ∧ run Options.strict shopOrder = (.ok root, c)
      ∧ c.definitions.keys =
        ["geo.Point", "geo.Address", "shop.Person", "Person", "Firm", "shop.Order"].map
          Text.ofString := by
  have hok : (ofSchema Options.strict shopOrder).toBool = true := by decide +kernel
  have hwalk : (ofNode shopOrder [] []).completed =
      ["geo.Point", "geo.Address", "shop.Person", "Person", "Firm", "shop.Order"].map
        Text.ofString := by
    decide +kernel
  cases hd : ofSchema Options.strict shopOrder with
  | error fault =>
    rw [hd] at hok
    cases hok
  | ok document =>
    obtain ⟨root, c, hrun, -, hkeys, -⟩ :=
      definitions_in_order_of_completion Options.strict shopOrder document hd
    exact ⟨document, root, c, rfl, hrun, hkeys.trans hwalk⟩

end Document

end AvroJsonSchema
