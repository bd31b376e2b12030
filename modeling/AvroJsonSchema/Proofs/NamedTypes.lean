import AvroJsonSchema.Proofs.Walk

/-!
# Named types and their full names

A definition keeps its full name when it is read again inside the namespace of that name: a
dotted name and a stated namespace do not look at the enclosing one, and the enclosing one is what
stands before the last dot otherwise.

* **`Name.namespaceOf_join`**: the namespace of a joined name.
* **`Name.ofNamed_namespaceOf`**: a definition keeps its full name inside its own namespace.
* **`Schema.Defines`**: an object is a definition of a full name.
* **`Schema.shape_put_fields`**, **`Schema.ofNamed_put_fields`**: a record keeps its name with other fields.
-/

namespace AvroJsonSchema

namespace Name

theorem ne_dot_of_mem_reverse {t : Text} (h : t.isDotted = false) :
    ∀ c ∈ t.reverse, (decide (c ≠ Text.dot)) = true := by
  intro c hc
  rw [List.mem_reverse] at hc
  rw [decide_eq_true_eq]
  rintro rfl
  simp [Text.isDotted, hc] at h

theorem dropWhile_append_dot {t : Text} (h : t.isDotted = false) (rest : Text) :
    (t.reverse ++ Text.dot :: rest).dropWhile (· ≠ Text.dot) = Text.dot :: rest := by
  rw [List.dropWhile_append_of_pos (ne_dot_of_mem_reverse h)]
  simp

theorem reverse_join {space name : Text} (hs : space ≠ []) :
    (join space name).reverse = name.reverse ++ Text.dot :: space.reverse := by
  have he : space.isEmpty = false := by simpa using hs
  simp [join, he]

/-- What stands before the last dot of a joined name is the namespace. -/
theorem namespaceOf_join {space name : Text} (hs : space ≠ []) (hn : name.isDotted = false) :
    namespaceOf (join space name) = space := by
  rw [namespaceOf, reverse_join hs, dropWhile_append_dot hn, List.tail_cons, List.reverse_reverse]

theorem namespaceOf_of_undotted {t : Text} (h : t.isDotted = false) : namespaceOf t = [] := by
  rw [namespaceOf, ← List.append_nil t.reverse, List.dropWhile_append_of_pos (ne_dot_of_mem_reverse h)]
  rfl

/-- A stated namespace is the same everywhere; without one it is the enclosing one everywhere. -/
theorem statedNamespace_ok {attributes : Json.Entries} {enclosing space : Text}
    (h : statedNamespace attributes enclosing = .ok space) :
    (∀ other, statedNamespace attributes other = .ok space)
      ∨ (space = enclosing ∧ ∀ other, statedNamespace attributes other = .ok other) := by
  unfold statedNamespace at *
  split at h
  · cases h
    exact .inr ⟨rfl, fun _ => rfl⟩
  · cases h
    exact .inl fun _ => rfl
  · exact .inl fun _ => h

theorem ofNamed_of_dotted {name : Text} (h : name.isDotted = true) (attributes : Json.Entries)
    (enclosing : Text) : ofNamed name attributes enclosing = .ok name := by
  rw [ofNamed, h]
  rfl

theorem ofNamed_of_undotted {name : Text} (h : name.isDotted = false) (attributes : Json.Entries)
    (enclosing : Text) :
    ofNamed name attributes enclosing = (statedNamespace attributes enclosing).map (join · name) := by
  rw [ofNamed, h]
  rfl

/-- A definition keeps its full name inside the namespace of that name. -/
theorem ofNamed_namespaceOf {name qualified enclosing : Text} {attributes : Json.Entries}
    (h : ofNamed name attributes enclosing = .ok qualified) :
    ofNamed name attributes (namespaceOf qualified) = .ok qualified := by
  cases hd : name.isDotted with
  | true =>
    rw [ofNamed_of_dotted hd] at h
    cases h
    exact ofNamed_of_dotted hd _ _
  | false =>
    rw [ofNamed_of_undotted hd] at h ⊢
    cases hs : statedNamespace attributes enclosing with
    | error fault => rw [hs] at h; cases h
    | ok space =>
      rw [hs] at h
      cases h
      rcases statedNamespace_ok hs with hall | ⟨rfl, hall⟩
      · rw [hall]
        rfl
      · -- nothing is stated: the enclosing namespace is read back off the full name
        by_cases he : space = []
        · subst he
          show (statedNamespace attributes (namespaceOf name)).map _ = _
          rw [namespaceOf_of_undotted hd, hall]
          rfl
        · show (statedNamespace attributes (namespaceOf (join space name))).map _ = _
          rw [namespaceOf_join he hd, hall]
          rfl

end Name

namespace Schema

/-- The types of an object that defines a name. -/
def definingTypes : List Complex :=
  [.record, .error, .enum, .fixed]

/-- An object is a record or an error by its type. -/
def IsRecord (attributes : Json.Entries) : Prop :=
  attributes.attr? "type" = some (.str Complex.record.text)
    ∨ attributes.attr? "type" = some (.str Complex.error.text)

/-- An object is a definition of a full name: it has the type and the name of one, and inside the
namespace of the full name it has that full name again. -/
structure Defines (attributes : Json.Entries) (qualified : Text) : Prop where
  type : ∃ c ∈ definingTypes, attributes.attr? "type" = some (.str c.text)
  name : ∃ name, attributes.attr? "name" = some (.str name)
  requalified : Name.full (.obj attributes) (Name.namespaceOf qualified) = .ok (.str qualified)

theorem full_of_ofNamed {name qualified enclosing : Text} {attributes : Json.Entries}
    (hn : attributes.attr? "name" = some (.str name))
    (h : Name.ofNamed name attributes enclosing = .ok qualified) :
    Name.full (.obj attributes) enclosing = .ok (.str qualified) := by
  show Name.ofDefinition attributes enclosing = _
  unfold Name.ofDefinition
  rw [hn]
  show (Name.ofNamed name attributes enclosing).map Json.str = _
  rw [h]
  rfl

/-- A definition has a full name if it has one as any schema value. -/
theorem ofNamed_of_full {name qualified enclosing : Text} {attributes : Json.Entries}
    (hn : attributes.attr? "name" = some (.str name))
    (h : Name.full (.obj attributes) enclosing = .ok (.str qualified)) :
    Name.ofNamed name attributes enclosing = .ok qualified := by
  cases hq : Name.ofNamed name attributes enclosing with
  | error fault =>
    have hf : (Name.ofNamed name attributes enclosing).map Json.str = .ok (.str qualified) := by
      rw [← h]
      show _ = Name.ofDefinition attributes enclosing
      unfold Name.ofDefinition
      rw [hn]
      rfl
    rw [hq] at hf
    cases hf
  | ok other =>
    have hf := full_of_ofNamed hn hq
    rw [h] at hf
    cases hf
    rfl

/-! ### What a shape says of the type and the name -/

theorem ofText_text_complex (c : Complex) : TypeName.ofText c.text = .complex c := by
  cases c <;> decide

theorem text_injective_complex {c d : Complex} (h : c.text = d.text) : c = d := by
  have hc := Complex.ofText?_text c
  rw [h, Complex.ofText?_text] at hc
  exact (Option.some.inj hc).symm

theorem ofText_complex {t : Text} {c : Complex} (h : TypeName.ofText t = .complex c) :
    t = c.text := by
  unfold TypeName.ofText at h
  split at h
  · cases h
  · split at h
    · rename_i c' hc
      cases h
      exact (Complex.text_of_ofText? hc).symm
    · cases h

theorem ofText_primitive {t : Text} {p : Primitive} (h : TypeName.ofText t = .primitive p) :
    t = p.text := by
  unfold TypeName.ofText at h
  split at h
  · rename_i p' hp
    cases h
    exact (Primitive.text_of_ofText? hp).symm
  · split at h <;> cases h

theorem ofText_defined {t name : Text} (h : TypeName.ofText t = .defined name) : name = t := by
  unfold TypeName.ofText at h
  split at h
  · cases h
  · split at h
    · cases h
    · cases h
      rfl

/-- A name with a dot names no built-in type. -/
theorem ofText_of_dotted {t : Text} (h : t.isDotted = true) : TypeName.ofText t = .defined t := by
  cases ht : TypeName.ofText t with
  | primitive p =>
    rw [ofText_primitive ht] at h
    cases p <;> cases h
  | complex c =>
    rw [ofText_complex ht] at h
    cases c <;> cases h
  | defined name => rw [ofText_defined ht]

/-- An object of a complex type has the shape of that type. -/
theorem objectShape_of_complex {attributes : Json.Entries} {c : Complex}
    (h : attributes.attr? "type" = some (.str c.text)) :
    objectShape attributes = complexShape c attributes := by
  unfold objectShape
  rw [h]
  simp only [ofText_text_complex]

/-- Only an object of a complex type has the shape of one. -/
theorem type_of_objectShape {attributes : Json.Entries} {s : Shape}
    (h : objectShape attributes = s) (hw : ∀ j, s ≠ .wrapper j) (hm : ∀ f, s ≠ .malformed f)
    (hp : ∀ p es, s ≠ .primitive p es) (hr : ∀ n es, s ≠ .reference n es) :
    ∃ c, attributes.attr? "type" = some (.str c.text) ∧ complexShape c attributes = s := by
  unfold objectShape at h
  split at h
  · exact absurd h.symm (hm _)
  · exact absurd h.symm (hw _)
  · exact absurd h.symm (hw _)
  · rename_i t ht
    split at h
    · exact absurd h.symm (hp _ _)
    · rename_i c hc
      rw [ofText_complex hc] at ht
      exact ⟨c, ht, h⟩
    · exact absurd h.symm (hr _ _)
  · exact absurd h.symm (hm _)

theorem namedShape_ok {c : Complex} {attributes : Json.Entries} {build : Text → Shape} {s : Shape}
    (h : namedShape c attributes build = s) (hm : ∀ f, s ≠ .malformed f) :
    ∃ name, attributes.attr? "name" = some (.str name) ∧ build name = s := by
  unfold namedShape at h
  split at h
  · exact absurd h.symm (hm _)
  · rename_i name hn
    exact ⟨name, hn, h⟩
  · exact absurd h.symm (hm _)

theorem namedShape_ne {c : Complex} {attributes : Json.Entries} {build : Text → Shape} {s : Shape}
    (hb : ∀ name, build name ≠ s) (hm : ∀ f, s ≠ .malformed f) :
    namedShape c attributes build ≠ s := by
  intro h
  obtain ⟨name, -, hn⟩ := namedShape_ok h hm
  exact hb name hn

theorem containerShape_ne {attributes : Json.Entries} {holder : Text} {build : Json → Shape}
    {s : Shape} (hb : ∀ j, build j ≠ s) (hm : ∀ f, s ≠ .malformed f) :
    containerShape attributes holder build ≠ s := by
  rcases containerShape_eq attributes holder build with ⟨j, -, hj⟩ | ⟨f, hf⟩
  · rw [hj]
    exact hb j
  · rw [hf]
    exact (hm f).symm

/-- A record by its shape is one by its type, and has the name of the shape. -/
theorem objectShape_record {attributes es : Json.Entries} {name : Text}
    (h : objectShape attributes = .record name es) :
    es = attributes ∧ attributes.attr? "name" = some (.str name) ∧ IsRecord attributes := by
  obtain ⟨c, ht, hc⟩ := type_of_objectShape h (by simp) (by simp) (by simp) (by simp)
  have hfits := complexShape_fits c attributes
  rw [hc] at hfits
  cases c with
  | record =>
    obtain ⟨n, hn, hb⟩ := namedShape_ok hc (by simp)
    cases hb
    exact ⟨hfits, hn, .inl ht⟩
  | error =>
    obtain ⟨n, hn, hb⟩ := namedShape_ok hc (by simp)
    cases hb
    exact ⟨hfits, hn, .inr ht⟩
  | enum => exact absurd hc (namedShape_ne (by simp) (by simp))
  | fixed => exact absurd hc (namedShape_ne (by simp) (by simp))
  | array => exact absurd hc (containerShape_ne (by simp) (by simp))
  | map => exact absurd hc (containerShape_ne (by simp) (by simp))

/-- An enum or a fixed type by its shape is one by its type, and has the name of the shape. -/
theorem objectShape_leaf {attributes es : Json.Entries} {kind : Leaf} {name : Text}
    (h : objectShape attributes = .leaf kind name es) :
    es = attributes ∧ attributes.attr? "name" = some (.str name)
      ∧ attributes.attr? "type" = some (.str kind.complex.text) := by
  obtain ⟨c, ht, hc⟩ := type_of_objectShape h (by simp) (by simp) (by simp) (by simp)
  have hfits := complexShape_fits c attributes
  rw [hc] at hfits
  cases c with
  | record => exact absurd hc (namedShape_ne (by simp) (by simp))
  | error => exact absurd hc (namedShape_ne (by simp) (by simp))
  | enum =>
    obtain ⟨n, hn, hb⟩ := namedShape_ok hc (by simp)
    cases hb
    exact ⟨hfits, hn, ht⟩
  | fixed =>
    obtain ⟨n, hn, hb⟩ := namedShape_ok hc (by simp)
    cases hb
    exact ⟨hfits, hn, ht⟩
  | array => exact absurd hc (containerShape_ne (by simp) (by simp))
  | map => exact absurd hc (containerShape_ne (by simp) (by simp))

theorem objectShape_of_leaf {attributes : Json.Entries} {name : Text} {kind : Leaf}
    (ht : attributes.attr? "type" = some (.str kind.complex.text))
    (hn : attributes.attr? "name" = some (.str name)) :
    objectShape attributes = .leaf kind name attributes := by
  rw [objectShape_of_complex ht]
  cases kind <;> rw [Leaf.complex, complexShape, namedShape, hn]

theorem objectShape_of_record {attributes : Json.Entries} {name : Text} (ht : IsRecord attributes)
    (hn : attributes.attr? "name" = some (.str name)) :
    objectShape attributes = .record name attributes := by
  rcases ht with ht | ht <;> rw [objectShape_of_complex ht, complexShape, namedShape, hn]

theorem type_of_array {attributes es : Json.Entries} {items : Json}
    (h : objectShape attributes = .array items es) :
    attributes.attr? "type" = some (.str Complex.array.text) := by
  obtain ⟨c, ht, hc⟩ := type_of_objectShape h (by simp) (by simp) (by simp) (by simp)
  cases c with
  | array => exact ht
  | map => exact absurd hc (containerShape_ne (by simp) (by simp))
  | _ => exact absurd hc (namedShape_ne (by simp) (by simp))

theorem type_of_map {attributes es : Json.Entries} {values : Json}
    (h : objectShape attributes = .map values es) :
    attributes.attr? "type" = some (.str Complex.map.text) := by
  obtain ⟨c, ht, hc⟩ := type_of_objectShape h (by simp) (by simp) (by simp) (by simp)
  cases c with
  | map => exact ht
  | array => exact absurd hc (containerShape_ne (by simp) (by simp))
  | _ => exact absurd hc (namedShape_ne (by simp) (by simp))

theorem objectShape_of_array {attributes : Json.Entries} {items : Json}
    (ht : attributes.attr? "type" = some (.str Complex.array.text))
    (hi : attributes.attr? "items" = some items) :
    objectShape attributes = .array items attributes := by
  rw [objectShape_of_complex ht, complexShape, containerShape, hi]

theorem objectShape_of_map {attributes : Json.Entries} {values : Json}
    (ht : attributes.attr? "type" = some (.str Complex.map.text))
    (hv : attributes.attr? "values" = some values) :
    objectShape attributes = .map values attributes := by
  rw [objectShape_of_complex ht, complexShape, containerShape, hv]

theorem isRecord_of_shape {schema : Json} {name : Text} {attributes : Json.Entries}
    (h : shape schema = .record name attributes) :
    schema = .obj attributes ∧ attributes.attr? "name" = some (.str name)
      ∧ IsRecord attributes := by
  have hs := eq_obj_of_record h
  rw [hs] at h
  exact ⟨hs, (objectShape_record h).2⟩

/-- A record with a full name defines it. -/
theorem defines_of_record {schema : Json} {name qualified enclosing : Text}
    {attributes : Json.Entries} (h : shape schema = .record name attributes)
    (hq : Name.ofNamed name attributes enclosing = .ok qualified) :
    Defines attributes qualified := by
  obtain ⟨-, hn, ht⟩ := isRecord_of_shape h
  refine ⟨?_, ⟨name, hn⟩, full_of_ofNamed hn (Name.ofNamed_namespaceOf hq)⟩
  rcases ht with ht | ht
  · exact ⟨.record, by decide, ht⟩
  · exact ⟨.error, by decide, ht⟩

/-- An enum or a fixed type with a full name defines it. -/
theorem defines_of_leaf {attributes : Json.Entries} {kind : Leaf} {name qualified enclosing : Text}
    (hn : attributes.attr? "name" = some (.str name))
    (ht : attributes.attr? "type" = some (.str kind.complex.text))
    (hq : Name.ofNamed name attributes enclosing = .ok qualified) :
    Defines attributes qualified := by
  refine ⟨⟨kind.complex, ?_, ht⟩, ⟨name, hn⟩, full_of_ofNamed hn (Name.ofNamed_namespaceOf hq)⟩
  cases kind <;> decide

theorem not_isRecord_of_leaf {attributes : Json.Entries} {kind : Leaf}
    (ht : attributes.attr? "type" = some (.str kind.complex.text)) : ¬IsRecord attributes := by
  rintro (h | h)
  · have hc := text_injective_complex (Json.str.inj (Option.some.inj (ht.symm.trans h)))
    cases kind <;> cases hc
  · have hc := text_injective_complex (Json.str.inj (Option.some.inj (ht.symm.trans h)))
    cases kind <;> cases hc

/-- A definition that is no record is an enum or a fixed type. -/
theorem Defines.leaf_of_not_record {attributes : Json.Entries} {qualified : Text}
    (h : Defines attributes qualified) (hr : ¬IsRecord attributes) :
    ∃ kind name, objectShape attributes = .leaf kind name attributes := by
  obtain ⟨c, hc, ht⟩ := h.type
  obtain ⟨name, hn⟩ := h.name
  simp only [definingTypes, List.mem_cons, List.not_mem_nil, or_false] at hc
  rcases hc with rfl | rfl | rfl | rfl
  · exact absurd (.inl ht) hr
  · exact absurd (.inr ht) hr
  · exact ⟨.enum, name, objectShape_of_leaf ht hn⟩
  · exact ⟨.fixed, name, objectShape_of_leaf ht hn⟩

/-! ### Other fields -/

/-- A record is a record still, of the same name, when other fields are put in. -/
theorem shape_put_fields {name : Text} {attributes : Json.Entries}
    (hs : shape (.obj attributes) = .record name attributes) (value : Json) :
    shape (.obj (attributes.put "fields" value)) = .record name (attributes.put "fields" value) := by
  obtain ⟨-, hn, hr⟩ := isRecord_of_shape hs
  have htype : (attributes.put "fields" value).attr? "type" = attributes.attr? "type" :=
    Json.Entries.attr?_put_of_ne (by decide) value attributes
  have hname : (attributes.put "fields" value).attr? "name" = attributes.attr? "name" :=
    Json.Entries.attr?_put_of_ne (by decide) value attributes
  refine objectShape_of_record ?_ (hname.trans hn)
  rw [IsRecord, htype]
  exact hr

/-- The full name of a definition is told by its name and its namespace. -/
theorem ofNamed_put_fields (name : Text) (attributes : Json.Entries) (value : Json)
    (enclosing : Text) :
    Name.ofNamed name (attributes.put "fields" value) enclosing =
      Name.ofNamed name attributes enclosing := by
  unfold Name.ofNamed Name.statedNamespace
  rw [Json.Entries.attr?_put_of_ne (by decide)]

end Schema

end AvroJsonSchema
