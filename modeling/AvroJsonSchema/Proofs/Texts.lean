import AvroJsonSchema.Text.Basic

/-!
# Texts taken apart and put together

* **`Text.splitAt_append`**: the parts of two texts with a mark between them.
* **`Text.isSome_before?_iff`**: a text that ends with another.
* **`Text.end_spec`**: the longest end that consists of some code points.
* **`Text.join_concat_append`**: what stands at the end of the last text that is joined.
* **`Text.lt_trans`**, **`Text.lt_connected`**: the order of texts is a strict linear order.
-/

namespace AvroJsonSchema

namespace Text

/-! ### Parts -/

theorem splitAt_ne_nil (mark : CodePoint) (t : Text) : splitAt mark t ≠ [] := by
  cases t with
  | nil => exact List.cons_ne_nil _ _
  | cons c t =>
    rw [splitAt]
    split
    · exact List.cons_ne_nil _ _
    · split <;> exact List.cons_ne_nil _ _

theorem splitAt_of_not_mem {mark : CodePoint} {t : Text} (h : mark ∉ t) : splitAt mark t = [t] := by
  induction t with
  | nil => rfl
  | cons c t ih =>
    have hc : c ≠ mark := fun hc => h (hc ▸ List.mem_cons_self)
    rw [splitAt, if_neg hc, ih fun ht => h (List.mem_cons_of_mem _ ht)]

theorem splitAt_append (mark : CodePoint) (s t : Text) :
    splitAt mark (s ++ mark :: t) = splitAt mark s ++ splitAt mark t := by
  induction s with
  | nil =>
    show splitAt mark (mark :: t) = [] :: splitAt mark t
    rw [splitAt, if_pos rfl]
  | cons c s ih =>
    show splitAt mark (c :: (s ++ mark :: t)) = _
    by_cases hc : c = mark
    · rw [splitAt, splitAt, if_pos hc, if_pos hc, ih, List.cons_append]
    · obtain ⟨part, parts, hparts⟩ := List.exists_cons_of_ne_nil (splitAt_ne_nil mark s)
      rw [splitAt, splitAt, if_neg hc, if_neg hc, ih, hparts]
      rfl

/-- A text without the mark only makes the last part longer. -/
theorem splitAt_append_of_not_mem {mark : CodePoint} (s : Text) {t : Text} (h : mark ∉ t) :
    ∃ parts part, splitAt mark (s ++ t) = parts ++ [part ++ t] := by
  induction s with
  | nil => exact ⟨[], [], splitAt_of_not_mem h⟩
  | cons c s ih =>
    obtain ⟨parts, part, heq⟩ := ih
    rw [List.cons_append, splitAt, heq]
    split
    · exact ⟨[] :: parts, part, rfl⟩
    · cases parts with
      | nil => exact ⟨[], c :: part, rfl⟩
      | cons first parts => exact ⟨(c :: first) :: parts, part, rfl⟩

theorem not_mem_of_mem_splitAt {mark : CodePoint} {t part : Text} (h : part ∈ splitAt mark t) :
    mark ∉ part := by
  induction t generalizing part with
  | nil =>
    rw [splitAt, List.mem_singleton] at h
    exact h ▸ List.not_mem_nil
  | cons c t ih =>
    rw [splitAt] at h
    split at h
    · rcases List.mem_cons.1 h with rfl | h
      · exact List.not_mem_nil
      · exact ih h
    · rename_i hc
      obtain ⟨first, parts, hparts⟩ := List.exists_cons_of_ne_nil (splitAt_ne_nil mark t)
      rw [hparts] at h ih
      rcases List.mem_cons.1 h with rfl | h
      · rw [List.mem_cons, not_or]
        exact ⟨fun heq => hc heq.symm, ih List.mem_cons_self⟩
      · exact ih (List.mem_cons_of_mem _ h)

/-! ### Endings -/

theorem after?_append (opening t : Text) : after? opening (opening ++ t) = some t := by
  induction opening with
  | nil => rw [List.nil_append, after?]
  | cons c opening ih => rw [List.cons_append, after?, if_pos rfl, ih]

theorem eq_of_after? {opening t rest : Text} (h : after? opening t = some rest) :
    t = opening ++ rest := by
  induction opening generalizing t with
  | nil =>
    rw [after?] at h
    exact Option.some.inj h
  | cons a opening ih =>
    cases t with
    | nil => simp [after?] at h
    | cons b t =>
      rw [after?] at h
      split at h
      · rename_i hab
        rw [hab, ih h, List.cons_append]
      · cases h

theorem before?_append (stem ending : Text) : before? ending (stem ++ ending) = some stem := by
  rw [before?, List.reverse_append, after?_append, Option.map_some, List.reverse_reverse]

theorem isSome_before?_iff {ending t : Text} : (before? ending t).isSome ↔ ending <:+ t := by
  constructor
  · intro h
    rw [before?, Option.isSome_map] at h
    obtain ⟨rest, hrest⟩ := Option.isSome_iff_exists.1 h
    refine ⟨rest.reverse, ?_⟩
    rw [← List.reverse_inj, List.reverse_append, List.reverse_reverse]
    exact (eq_of_after? hrest).symm
  · rintro ⟨stem, rfl⟩
    rw [before?_append]
    rfl

/-- The longest end of a text that consists of some code points, and what stands before it. -/
theorem end_spec (p : CodePoint → Bool) (t : Text) :
    t = (t.reverse.dropWhile p).reverse ++ (t.reverse.takeWhile p).reverse ∧
    (∀ c ∈ (t.reverse.takeWhile p).reverse, p c) ∧
    ∀ c, (t.reverse.dropWhile p).reverse.getLast? = some c → p c = false := by
  refine ⟨?_, fun c hc => ?_, fun c hc => ?_⟩
  · rw [← List.reverse_append, List.takeWhile_append_dropWhile, List.reverse_reverse]
  · exact List.all_eq_true.1 List.all_takeWhile c (List.mem_reverse.1 hc)
  · have hhead := List.head?_dropWhile_not p t.reverse
    rw [List.getLast?_reverse] at hc
    rwa [hc] at hhead

/-! ### Joined texts -/

theorem join_concat_append (separator : Text) (ts : List Text) (t ending : Text) :
    join separator (ts ++ [t ++ ending]) = join separator (ts ++ [t]) ++ ending := by
  induction ts with
  | nil => rfl
  | cons u ts ih =>
    cases ts with
    | nil =>
      show u ++ separator ++ (t ++ ending) = u ++ separator ++ t ++ ending
      rw [List.append_assoc (u ++ separator)]
    | cons v ts =>
      show u ++ separator ++ join separator (v :: ts ++ [t ++ ending]) =
        u ++ separator ++ join separator (v :: ts ++ [t]) ++ ending
      rw [ih, List.append_assoc (u ++ separator)]

/-! ### The order -/

theorem lt_irrefl (t : Text) : lt t t = false := by
  induction t with
  | nil => rfl
  | cons c t ih => rw [lt, if_pos rfl, ih]

theorem lt_trans {r s t : Text} (h : lt r s) (h' : lt s t) : lt r t := by
  induction r generalizing s t with
  | nil =>
    cases t with
    | nil => cases s <;> simp [lt] at h'
    | cons c t => rfl
  | cons a r ih =>
    cases s with
    | nil => simp [lt] at h
    | cons b s =>
      cases t with
      | nil => simp [lt] at h'
      | cons c t =>
        rw [lt] at h h' ⊢
        by_cases hab : a = b <;> by_cases hbc : b = c
        · subst hab hbc
          rw [if_pos rfl] at h h' ⊢
          exact ih h h'
        · subst hab
          rwa [if_neg hbc] at h' ⊢
        · subst hbc
          rwa [if_neg hab] at h ⊢
        · rw [if_neg hab, decide_eq_true_eq] at h
          rw [if_neg hbc, decide_eq_true_eq] at h'
          have hac : a ≠ c := by
            rintro rfl
            omega
          rw [if_neg hac, decide_eq_true_eq]
          omega

theorem lt_connected (s t : Text) : s = t ∨ lt s t ∨ lt t s := by
  induction s generalizing t with
  | nil =>
    cases t with
    | nil => exact .inl rfl
    | cons b t => exact .inr (.inl rfl)
  | cons a s ih =>
    cases t with
    | nil => exact .inr (.inr rfl)
    | cons b t =>
      by_cases hab : a = b
      · subst hab
        rw [lt, lt, if_pos rfl, if_pos rfl]
        exact (ih t).imp_left (congrArg (a :: ·))
      · have hne : a.val ≠ b.val := fun h => hab (by cases a; cases b; cases h; rfl)
        rw [lt, lt, if_neg hab, if_neg (Ne.symm hab), decide_eq_true_eq, decide_eq_true_eq]
        omega

theorem lt_asymm {s t : Text} (h : lt s t) : lt t s = false := by
  rw [Bool.eq_false_iff]
  intro h'
  have := lt_trans h h'
  rw [lt_irrefl] at this
  cases this

end Text

end AvroJsonSchema
