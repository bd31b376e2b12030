import AvroJsonSchema.Proofs.Reading
import AvroJsonSchema.Proofs.Rendering

/-!
# Scopes and contexts

Reading a schema keeps a scope where converting it keeps a context.  A scope fits a context if both
know the same names to stand for the same types, and it goes on to do so when a type is met, a record
is entered and a record is left.  What the conversion of some nodes has written is told by the types
that they mean.

* **`Scope.Fits`**: a scope fits a context.  **`Scope.Fits.meaning?_of_resolve`**: a name means the same in
  both.
* **`Context.Progress`**: what has been written for some types.
-/

namespace AvroJsonSchema

open Schema AvroType

namespace Scope

/-- A scope fits a context: the same records have been entered, and a name stands for what it has
been defined as, where nothing that has been defined has a logical type or a custom property. -/
structure Fits (scope : Scope) (c : Context) : Prop where
  records : scope.records = c.seen
  bare : ∀ q attributes, (q, attributes) ∈ c.named → Bare attributes
  undefined : ∀ q, c.named.get? q = none → scope.meanings.get? q = none
  entered : ∀ q ∈ c.seen, scope.meanings.get? q = some .record
  leaf : ∀ q attributes, q ∉ c.seen → c.named.get? q = some attributes →
    ∃ kind name meaning, objectShape attributes = .leaf kind name attributes
      ∧ NamedType.ofLeaf? kind attributes = some meaning ∧ scope.meanings.get? q = some meaning

variable {scope : Scope} {c : Context} {q : Text} {attributes : Json.Entries}

theorem Fits.empty : Scope.empty.Fits Context.empty where
  records := rfl
  bare := by simp [Context.empty]
  undefined _ _ := rfl
  entered := by simp [Context.empty]
  leaf _ _ _ h := by cases h

/-- A name has a meaning if it has been defined. -/
theorem Fits.isSome_meaning (h : scope.Fits c) (q : Text) :
    (scope.meanings.get? q).isSome = c.named.has q := by
  unfold Table.has
  cases hq : c.named.get? q with
  | none =>
    rw [h.undefined q hq]
    rfl
  | some attributes =>
    by_cases hseen : q ∈ c.seen
    · rw [h.entered q hseen]
      rfl
    · obtain ⟨_, _, meaning, -, -, hm⟩ := h.leaf q attributes hseen hq
      rw [hm]
      rfl

/-- A name means what the defined type stands for that it is resolved to. -/
theorem Fits.meaning?_of_resolve (h : scope.Fits c) {name enclosing : Text} {meaning : NamedType}
    (hp : Primitive.ofText? name = none) (hr : c.resolve name enclosing = .ok q)
    (hm : scope.meanings.get? q = some meaning) :
    scope.meaning? name enclosing = some (meaning.type q) := by
  have hfind := Context.resolve_eq_ok_iff.1 hr
  obtain ⟨-, before, after, hsplit, hbefore⟩ := List.find?_eq_some_iff_append.1 hfind
  rw [meaning?, hp]
  refine List.findSome?_eq_some_iff.2 ⟨before, q, after, hsplit, ?_, ?_⟩
  · rw [hm]
    rfl
  · intro other hother
    have hnone : (scope.meanings.get? other).isSome = false := by
      rw [h.isSome_meaning]
      simpa using hbefore other hother
    rw [Option.isSome_eq_false_iff, Option.isNone_iff_eq_none] at hnone
    rw [hnone]
    rfl

/-! ### One write -/

/-- What is bare stays so when something bare is written. -/
theorem bare_set (h : ∀ p es, (p, es) ∈ c.named → Bare es) (hb : Bare attributes) :
    ∀ p es, (p, es) ∈ c.named.set q attributes → Bare es := by
  intro p es hp
  rcases Table.mem_set_sharp (Table.sharp_of_lawful q) hp with hp | hp
  · exact h p es hp
  · cases hp
    exact hb

/-- Where a written table has nothing, neither had the table before. -/
theorem get?_of_set_none {α : Type} {t : Table Text α} {v : α} {p : Text}
    (h : (t.set q v).get? p = none) : p ≠ q ∧ t.get? p = none := by
  rw [Table.get?_set] at h
  split at h
  · cases h
  · rename_i hne
    exact ⟨hne, h⟩

/-- An enum or a fixed type may be met. -/
theorem Fits.define (h : scope.Fits c) {kind : Leaf} {name : Text} {meaning : NamedType}
    (hb : Bare attributes) (hs : objectShape attributes = .leaf kind name attributes)
    (hm : NamedType.ofLeaf? kind attributes = some meaning) :
    (scope.define q meaning).Fits (c.addNamed q attributes) := by
  by_cases hseen : q ∈ scope.records
  · -- the name of a record goes on to mean the record
    have hsame : scope.define q meaning = scope :=
      if_pos (List.contains_iff_mem.2 hseen)
    rw [hsame]
    refine ⟨h.records, bare_set h.bare hb, ?_, h.entered, ?_⟩
    · intro p hp
      exact h.undefined p (get?_of_set_none hp).2
    · intro p es hp hes
      have hne : p ≠ q := by
        rintro rfl
        exact hp (h.records ▸ hseen)
      have hes' : (c.named.set q attributes).get? p = some es := hes
      rw [Table.get?_set, if_neg hne] at hes'
      exact h.leaf p es hp hes'
  · have hnew : scope.define q meaning = { scope with meanings := scope.meanings.set q meaning } :=
      if_neg (mt List.contains_iff_mem.1 hseen)
    rw [hnew]
    refine ⟨h.records, bare_set h.bare hb, ?_, ?_, ?_⟩
    · intro p hp
      obtain ⟨hne, hp⟩ := get?_of_set_none hp
      show (scope.meanings.set q meaning).get? p = none
      rw [Table.get?_set, if_neg hne]
      exact h.undefined p hp
    · intro p hp
      have hne : p ≠ q := by
        rintro rfl
        exact hseen (h.records ▸ hp)
      show (scope.meanings.set q meaning).get? p = _
      rw [Table.get?_set, if_neg hne]
      exact h.entered p hp
    · intro p es hp hes
      have hes' : (c.named.set q attributes).get? p = some es := hes
      show ∃ kind name m, _ ∧ _ ∧ (scope.meanings.set q meaning).get? p = some m
      by_cases hne : p = q
      · subst hne
        rw [Table.get?_set, if_pos rfl] at hes'
        cases hes'
        exact ⟨kind, name, meaning, hs, hm, by rw [Table.get?_set, if_pos rfl]⟩
      · rw [Table.get?_set, if_neg hne] at hes' ⊢
        exact h.leaf p es hp hes'

theorem Fits.afterLeaf (h : scope.Fits c) {kind : Leaf} {name : Text} {meaning : NamedType}
    (hb : Bare attributes) (hs : objectShape attributes = .leaf kind name attributes)
    (hm : NamedType.ofLeaf? kind attributes = some meaning) :
    (AvroType.afterLeaf q meaning scope).Fits (if q.isEmpty then c else c.addNamed q attributes) := by
  unfold AvroType.afterLeaf
  split
  · exact h
  · exact h.define hb hs hm

/-- A record may be entered. -/
theorem Fits.enter (h : scope.Fits c) (hb : Bare attributes) :
    (scope.enter q).Fits (c.enter q attributes) := by
  refine ⟨?_, bare_set h.bare hb, ?_, ?_, ?_⟩
  · show scope.records ++ [q] = c.seen ++ [q]
    rw [h.records]
  · intro p hp
    obtain ⟨hne, hp⟩ := get?_of_set_none hp
    show (scope.meanings.set q .record).get? p = none
    rw [Table.get?_set, if_neg hne]
    exact h.undefined p hp
  · intro p hp
    show (scope.meanings.set q .record).get? p = _
    by_cases hne : p = q
    · rw [Table.get?_set, if_pos hne]
    · rw [Table.get?_set, if_neg hne]
      refine h.entered p ?_
      rcases List.mem_append.1 hp with hp | hp
      · exact hp
      · exact absurd (List.mem_singleton.1 hp) hne
  · intro p es hp hes
    have hne : p ≠ q := by
      rintro rfl
      exact hp (List.mem_append_right _ List.mem_cons_self)
    have hes' : (c.named.set q attributes).get? p = some es := hes
    show ∃ kind name m, _ ∧ _ ∧ (scope.meanings.set q .record).get? p = some m
    rw [Table.get?_set, if_neg hne] at hes' ⊢
    exact h.leaf p es (fun hseen => hp (List.mem_append_left _ hseen)) hes'

/-- A record may be left. -/
theorem Fits.leave (h : scope.Fits c) (keywords : Json.Entries) :
    scope.Fits (c.define q keywords) :=
  ⟨h.records, h.bare, h.undefined, h.entered, h.leaf⟩

/-- A definition may be met again under its full name. -/
theorem Fits.again (h : scope.Fits c) (hq : c.named.get? q = some attributes) :
    scope.Fits (c.addNamed q attributes) := by
  rw [Context.addNamed_of_get? hq]
  exact h

end Scope

/-! ### What has been written -/

/-- A type is a record or a reference to one. -/
def AvroType.IsNamed : AvroType → Prop
  | .record _ _ => True
  | .reference _ => True
  | _ => False

namespace Context

/-- What has been written between two contexts for some types: every distinguishable record in them
is written as its definition, nothing else has been entered, and references name what has been. -/
structure Progress (options : Options) (c c' : Context) (ts : List AvroType) : Prop where
  evolves : c.Evolves c' []
  written : ∀ t ∈ ts, ∀ name fields, Within (.record name fields) t →
    (AvroType.record name fields).Distinguishable →
    ∃ keywords, c'.definitions.get? name = some keywords
      ∧ Renders options (.record name fields) keywords
  entered : ∀ q ∈ c'.seen, q ∈ c.seen ∨ ∃ t ∈ ts, ∃ fields, Within (.record q fields) t
  referred : ∀ t ∈ ts, ∀ q, Within (.reference q) t → q ∈ c'.seen

variable {options : Options} {c c' c'' : Context} {t : AvroType} {ts us : List AvroType}

theorem Progress.nil (h : c.Sound) : Progress options c c [] where
  evolves := .refl h
  written := by simp
  entered q hq := .inl hq
  referred := by simp

/-- Types after others. -/
theorem Progress.append (h : Progress options c c' ts) (h' : Progress options c' c'' us) :
    Progress options c c'' (ts ++ us) where
  evolves := h.evolves.trans h'.evolves
  written t ht name fields hw hd := by
    rcases List.mem_append.1 ht with ht | ht
    · obtain ⟨keywords, hk, hr⟩ := h.written t ht name fields hw hd
      exact ⟨keywords, h'.evolves.get?_definitions hk, hr⟩
    · exact h'.written t ht name fields hw hd
  entered q hq := by
    rcases h'.entered q hq with hq | ⟨t, ht, hw⟩
    · rcases h.entered q hq with hq | ⟨t, ht, hw⟩
      · exact .inl hq
      · exact .inr ⟨t, List.mem_append_left _ ht, hw⟩
    · exact .inr ⟨t, List.mem_append_right _ ht, hw⟩
  referred t ht q hw := by
    rcases List.mem_append.1 ht with ht | ht
    · exact h'.evolves.seen_subset (h.referred t ht q hw)
    · exact h'.referred t ht q hw

/-- What is written for some types is written for a type that adds no record and no reference to
them. -/
theorem Progress.around (h : Progress options c c' ts)
    (hdown : ∀ s, s.IsNamed → Within s t → ∃ u ∈ ts, Within s u)
    (hup : ∀ u ∈ ts, Within u t) : Progress options c c' [t] where
  evolves := h.evolves
  written s hs name fields hw hd := by
    rw [List.mem_singleton.1 hs] at hw
    obtain ⟨u, hu, hw⟩ := hdown (.record name fields) trivial hw
    exact h.written u hu name fields hw hd
  entered q hq := by
    refine (h.entered q hq).imp_right ?_
    rintro ⟨u, hu, fields, hw⟩
    exact ⟨t, List.mem_cons_self, fields, hw.trans (hup u hu)⟩
  referred s hs q hw := by
    rw [List.mem_singleton.1 hs] at hw
    obtain ⟨u, hu, hw⟩ := hdown (.reference q) trivial hw
    exact h.referred u hu q hw

/-- A type that holds no other and is no record, where a reference names what has been entered. -/
theorem Progress.simple (hc : c.Evolves c' []) (hseen : c'.seen = c.seen)
    (h : ∀ s, s.IsNamed → Within s t → ∃ q ∈ c.seen, s = .reference q) :
    Progress options c c' [t] where
  evolves := hc
  written s hs name fields hw _ := by
    rw [List.mem_singleton.1 hs] at hw
    obtain ⟨q, -, hq⟩ := h (.record name fields) trivial hw
    cases hq
  entered q hq := .inl (hseen ▸ hq)
  referred s hs q hw := by
    rw [List.mem_singleton.1 hs] at hw
    obtain ⟨p, hp, he⟩ := h (.reference q) trivial hw
    cases he
    exact hseen.symm ▸ hp

/-- A record is written once it is left after its fields. -/
theorem Progress.record {q : Text} {attributes keywords : Json.Entries}
    {fields : List (Json.Key × AvroType)} (hc : c.Sound) (hq : q ∉ c.seen)
    (h : Progress options (c.enter q attributes) c' (fields.map Prod.snd))
    (hr : (AvroType.record q fields).Distinguishable → Renders options (.record q fields) keywords) :
    Progress options c (c'.define q keywords) [.record q fields] := by
  have hseen : q ∈ c'.seen := h.evolves.seen_subset (List.mem_append_right _ List.mem_cons_self)
  have hnew : q ∉ c'.definitions.keys :=
    h.evolves.not_defined (List.mem_append_right _ List.mem_cons_self)
      fun hd => hq (hc.defined_seen q hd)
  -- a named type in the record is the record itself or stands in one of its fields
  have hcases : ∀ s, Within s (.record q fields) →
      s = .record q fields ∨ ∃ u ∈ fields.map Prod.snd, Within s u := by
    intro s hw
    cases hw with
    | self => exact .inl rfl
    | field hf hw => exact .inr ⟨_, List.mem_map.2 ⟨_, hf, rfl⟩, hw⟩
  refine ⟨.of_enter_define hc hq h.evolves, ?_, ?_, ?_⟩
  · intro s hs name fs hw hd
    rw [List.mem_singleton.1 hs] at hw
    show ∃ es, (c'.definitions.set q keywords).get? name = some es ∧ _
    rw [Table.get?_set]
    rcases hcases _ hw with he | ⟨u, hu, hw⟩
    · cases he
      exact ⟨keywords, if_pos rfl, hr hd⟩
    · obtain ⟨es, hes, hrenders⟩ := h.written u hu name fs hw hd
      have hsharp := Table.sharp_of_lawful name
      have hne : name ≠ q := by
        rintro rfl
        exact hnew (Table.mem_keys_of_mem (Table.mem_of_get?_eq_some hsharp hes))
      exact ⟨es, (if_neg hne).trans hes, hrenders⟩
  · intro p hp
    rcases h.entered p hp with hp | ⟨u, hu, fs, hw⟩
    · rcases List.mem_append.1 hp with hp | hp
      · exact .inl hp
      · rw [List.mem_singleton.1 hp]
        exact .inr ⟨_, List.mem_cons_self, fields, .self _⟩
    · obtain ⟨⟨key, _⟩, hf, rfl⟩ := List.mem_map.1 hu
      exact .inr ⟨_, List.mem_cons_self, fs, .field hf hw⟩
  · intro s hs p hw
    rw [List.mem_singleton.1 hs] at hw
    rcases hcases _ hw with he | ⟨u, hu, hw⟩
    · cases he
    · exact h.referred u hu p hw

end Context

end AvroJsonSchema
