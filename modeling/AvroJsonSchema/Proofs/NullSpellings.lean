import AvroJsonSchema.Proofs.Kinds

/-!
# How null is written in a union

Null may be written by its name, as an object of that type with any annotations, and inside any
wrappers; it may stand more than once, and before or after the other members.  None of this is seen in
what is made of a union of null and one other type, nor in the context that is left: the members that
are null are told by their kind and then left out, and all the rest is done with the other member.

* **`Schema.SpellsNull`**: the ways to write null.
* **`Schema.spellsNull_iff`**: they are the nodes of the kind of null.
* **`Conversion.unionForm_around`**: the form of a union of null and one other type hangs on the other
  type alone.
* **`Conversion.null_spelled_anyhow`**: such a union is converted as the one of two members is.
-/

namespace AvroJsonSchema

namespace Schema

/-- A way to write null: its name, or an object whose type is a way to write it, whatever else the
object holds. -/
inductive SpellsNull : Json → Prop
  | name : SpellsNull (.str "null")
  | object {attributes : Json.Entries} {type : Json} :
      attributes.attr? "type" = some type → SpellsNull type → SpellsNull (.obj attributes)

theorem SpellsNull.kind {j : Json} (h : SpellsNull j) : kind j = .ok (.str "null") := by
  induction h with
  | name => exact kind_of_plain trivial
  | object ht _ ih => rw [kind_of_type ht, ih]

/-- The ways to write null are the nodes of its kind. -/
theorem spellsNull_iff {j : Json} : SpellsNull j ↔ kind j = .ok (.str "null") := by
  refine ⟨SpellsNull.kind, fun h => ?_⟩
  induction j using Schema.induction with
  | step schema ih =>
    rcases kind_cases h with ⟨_, -, hk⟩ | ⟨rfl, -⟩ | ⟨attributes, rfl, ht, -⟩ | ⟨inner, hs, hk⟩
    · cases hk
    · exact .name
    · exact .object ht .name
    · obtain ⟨attributes, rfl, ht⟩ := fits_of_shape hs (by simp) (by simp) (by simp)
      exact .object ht (ih inner (.inner hs) hk)

end Schema

namespace Conversion

open Schema Step

variable {setup : Setup} {enclosing : Text} {before after members members' nulls rest : List Json}
  {member : Json}

/-! ### The members that are left -/

/-- Null in front of other members is left out. -/
theorem nonNull_append (h : ∀ j ∈ nulls, kind j = .ok (.str "null")) :
    nonNull (nulls ++ rest) = nonNull rest := by
  induction nulls with
  | nil => rfl
  | cons j js ih =>
    have hrest := ih fun i hi => h i (List.mem_cons_of_mem _ hi)
    rw [List.cons_append, nonNull, h j List.mem_cons_self, hrest]
    simp only [bind, Except.bind]
    cases nonNull rest <;> rfl

/-- Null around one member is left out, also where the kind of that member cannot be told. -/
theorem nonNull_around (h : ∀ j ∈ before ++ after, kind j = .ok (.str "null")) :
    nonNull (before ++ member :: after) = nonNull [member] := by
  have hafter : nonNull after = nonNull [] := by
    have hnulls : nonNull (after ++ []) = nonNull [] :=
      nonNull_append fun j hj => h j (List.mem_append_right before hj)
    rwa [List.append_nil] at hnulls
  rw [nonNull_append fun j hj => h j (List.mem_append_left after hj), nonNull, nonNull, hafter]

/-- The form of a union of null and one other type hangs on the other type alone. -/
theorem unionForm_around (h : ∀ j ∈ before ++ after, kind j = .ok (.str "null"))
    (hne : before ++ after ≠ []) (hmember : kind member ≠ .ok (.str "null")) :
    unionForm (before ++ member :: after) =
      match kind member with
      | .error fault => .fault fault
      | .ok _ => .nullable member := by
  have hlength : (before ++ member :: after).length ≠ 1 := by
    have hpos := List.length_pos_iff.2 hne
    simp only [List.length_append, List.length_cons] at hpos ⊢
    omega
  unfold unionForm
  rw [nonNull_around h]
  cases hk : kind member with
  | error fault =>
    have hfault : nonNull [member] = .error fault := by
      simp only [nonNull, hk, bind, Except.bind]
    rw [hfault]
  | ok k =>
    have hnull : ¬isNullKind k = true := fun hn => hmember (hk.trans (eq_null_of_isNullKind hn ▸ rfl))
    have hleft : nonNull [member] = .ok (if isNullKind k then [] else [member]) := nonNull_cons hk rfl
    rw [hleft, if_neg hnull]
    exact if_neg hlength

/-- Two unions of one form that is no choice are converted alike. -/
theorem union_of_form (h : unionForm members = unionForm members')
    (hchoice : unionForm members ≠ .choice) :
    union setup members enclosing = union setup members' enclosing := by
  cases hu : unionForm members with
  | fault fault => rw [union_of_fault hu, union_of_fault (h ▸ hu)]
  | choice => exact absurd hu hchoice
  | nullable member => rw [union_of_nullable hu, union_of_nullable (h ▸ hu)]

/-- **The spelling, the number and the places of null do not matter.**  The members of the kind of null
are those that write null in one of its ways.  A union of one other member and any number of these, one
at least, in any places, has in every context the same outcome as the union of null by its name and the
other member: the same keywords in the same order, or the same fault, and the same context is left. -/
theorem null_spelled_anyhow (setup : Setup) (enclosing : Text) :
    (∀ j, kind j = .ok (.str "null") ↔ SpellsNull j)
      ∧ ∀ (before after : List Json) (member : Json),
        (∀ j ∈ before ++ after, kind j = .ok (.str "null")) → before ++ after ≠ [] →
        kind member ≠ .ok (.str "null") →
        ∀ c : Context, outcome (union setup (before ++ member :: after) enclosing) c =
          outcome (union setup ["null", member] enclosing) c := by
  refine ⟨fun j => spellsNull_iff.symm, fun before after member hnulls hne hmember c => ?_⟩
  have hname : ∀ j ∈ [Json.str "null"] ++ [], kind j = .ok (.str "null") := by
    intro j hj
    rw [List.mem_singleton.1 hj]
    exact SpellsNull.name.kind
  have hmany := unionForm_around hnulls hne hmember
  have htwo := unionForm_around hname (by simp) hmember
  have hsame : unionForm (before ++ member :: after) = unionForm ["null", member] :=
    hmany.trans htwo.symm
  have hchoice : unionForm (before ++ member :: after) ≠ .choice := by
    rw [hmany]
    cases kind member <;> simp
  rw [union_of_form hsame hchoice]

/-- A list of words. -/
def words : Json :=
  .obj [(.text "type", "array"), (.text "items", "string")]

/-- Null inside a wrapper, with a note. -/
def wrappedNull : Json :=
  .obj [(.text "type", .obj [(.text "type", "null"), (.text "doc", "nothing")])]

theorem null_spelled_anyhow_words :
    (∀ j ∈ [wrappedNull] ++ [Json.str "null"], kind j = .ok (.str "null"))
      ∧ kind words ≠ .ok (.str "null")
      ∧ outcome (union Options.strict [wrappedNull, words, "null"] []) Context.empty =
        outcome (union Options.strict ["null", words] []) Context.empty := by
  have hnulls : ∀ j ∈ [wrappedNull] ++ [Json.str "null"], kind j = .ok (.str "null") := by
    intro j hj
    rcases List.mem_cons.1 hj with rfl | hj
    · exact (SpellsNull.object rfl (.object rfl .name)).kind
    · rw [List.mem_singleton.1 hj]
      exact SpellsNull.name.kind
  have hwords : kind words ≠ .ok (.str "null") := by
    intro h
    have harray : kind words = kind (.str "array") := kind_of_type rfl
    rw [harray, kind_of_plain (by trivial)] at h
    cases h
  exact ⟨hnulls, hwords, (null_spelled_anyhow Options.strict []).2 [wrappedNull] ["null"] words
    hnulls (by simp) hwords Context.empty⟩

end Conversion

end AvroJsonSchema
