import AvroJsonSchema.Json.Basic

/-!
# Laws of tables

What stands in a table after something has been put into it.  The keys of an object compare by
value, so a key need not be equal to the one it is found under; a text, however, is found under
itself alone.  Most laws ask for such a **sharp** key.

* **`Table.Sharp`**: a key that no other key is taken for.
* **`Table.keys_set`**: a key that is there keeps its place, a new one goes to the end.
* **`Table.mem_set_sharp`**: an entry is an old one or the one that has been put in.
* **`Table.foldl_of_disjoint`**: entries under new keys go to the end.
* **`Table.get?_set_of_ne`**, **`Table.get?_merge_of_absent`**: what is left alone.
* **`Table.get?_merge`**, **`Table.Once`**: what a merged table holds under a key.
* **`Table.mapValues`**: a function applied to the values, which changes no place.
-/

namespace AvroJsonSchema

namespace Table

variable {κ α : Type} [BEq κ]

/-- A key that no other key is taken for. -/
def Sharp (k : κ) : Prop :=
  ∀ k', ((k' == k) = true ↔ k' = k) ∧ ((k == k') = true ↔ k' = k)

theorem Sharp.beq_self {k : κ} (h : Sharp k) : (k == k) = true :=
  (h k).1.2 rfl

/-- A table whose keys compare by equality has sharp keys only. -/
theorem sharp_of_lawful [LawfulBEq κ] (k : κ) : Sharp k := by
  intro k'
  refine ⟨beq_iff_eq, ?_⟩
  rw [beq_iff_eq]
  exact eq_comm

/-! ### One key -/

theorem get?_set_self {k : κ} (hk : Sharp k) (v : α) (t : Table κ α) :
    get? k (set k v t) = some v := by
  induction t with
  | nil => simp only [set, get?, hk.beq_self, if_true]
  | cons e t ih =>
    obtain ⟨k', w⟩ := e
    by_cases h : (k' == k) = true
    · simp only [set, h, if_true, get?]
    · simp only [set, h, get?, Bool.false_eq_true, if_false]
      exact ih

theorem get?_set_of_ne {k k' : κ} (hk : Sharp k) (hne : k' ≠ k) (v : α) (t : Table κ α) :
    get? k (set k' v t) = get? k t := by
  have hkk' : ¬(k' == k) = true := fun h => hne ((hk k').1.1 h)
  induction t with
  | nil => simp only [set, get?, hkk']; rfl
  | cons e t ih =>
    obtain ⟨k'', w⟩ := e
    by_cases h : (k'' == k') = true
    · have hkk'' : ¬(k'' == k) = true := by
        intro hc
        rw [(hk k'').1.1 hc] at h
        exact hne ((hk k').2.1 h)
      simp only [set, h, if_true, get?, hkk'']
      rfl
    · by_cases hc : (k'' == k) = true
      · simp only [set, h, get?, hc, if_true, Bool.false_eq_true, if_false]
      · simp only [set, h, get?, hc, Bool.false_eq_true, if_false]
        exact ih

/-- An entry of a table after a key has been set. -/
theorem mem_set {k : κ} {v : α} {t : Table κ α} {e : κ × α} (h : e ∈ set k v t) :
    e ∈ t ∨ (e.2 = v ∧ (e.1 = k ∨ (e.1 == k) = true)) := by
  induction t with
  | nil =>
    simp only [set, List.mem_singleton] at h
    exact .inr ⟨by rw [h], .inl (by rw [h])⟩
  | cons e' t ih =>
    obtain ⟨k', w⟩ := e'
    by_cases hk : (k' == k) = true
    · simp only [set, hk, if_true, List.mem_cons] at h
      rcases h with rfl | h
      · exact .inr ⟨rfl, .inr hk⟩
      · exact .inl (List.mem_cons_of_mem _ h)
    · simp only [set, hk, Bool.false_eq_true, if_false, List.mem_cons] at h
      rcases h with rfl | h
      · exact .inl List.mem_cons_self
      · rcases ih h with h | h
        · exact .inl (List.mem_cons_of_mem _ h)
        · exact .inr h

/-- With a sharp key, the only new entry is the one that has been set. -/
theorem mem_set_sharp {k : κ} (hk : Sharp k) {v : α} {t : Table κ α} {e : κ × α}
    (h : e ∈ set k v t) : e ∈ t ∨ e = (k, v) := by
  rcases mem_set h with h | ⟨hv, hc⟩
  · exact .inl h
  · refine .inr (Prod.ext ?_ hv)
    rcases hc with hc | hc
    · exact hc
    · exact (hk e.1).1.1 hc

theorem mem_of_mem_erase {k : κ} {t : Table κ α} {e : κ × α} (h : e ∈ erase k t) : e ∈ t := by
  induction t with
  | nil => exact h
  | cons e' t ih =>
    obtain ⟨k', w⟩ := e'
    by_cases hk : (k' == k) = true
    · simp only [erase, hk, if_true] at h
      exact List.mem_cons_of_mem _ h
    · simp only [erase, hk, Bool.false_eq_true, if_false] at h
      rcases List.mem_cons.1 h with rfl | h
      · exact List.mem_cons_self
      · exact List.mem_cons_of_mem _ (ih h)

/-- A key that is not there is not taken away. -/
theorem erase_of_get?_eq_none {k : κ} {t : Table κ α} (h : get? k t = none) : erase k t = t := by
  induction t with
  | nil => rfl
  | cons e t ih =>
    obtain ⟨k', w⟩ := e
    by_cases hk : (k' == k) = true
    · rw [get?, if_pos hk] at h
      cases h
    · rw [get?, if_neg hk] at h
      rw [erase, if_neg hk, ih h]

theorem get?_erase_of_ne {k k' : κ} (hk : Sharp k) (hne : k' ≠ k) (t : Table κ α) :
    get? k (erase k' t) = get? k t := by
  have hkk' : ¬(k' == k) = true := fun h => hne ((hk k').1.1 h)
  induction t with
  | nil => rfl
  | cons e t ih =>
    obtain ⟨k'', w⟩ := e
    by_cases h : (k'' == k') = true
    · have hkk'' : ¬(k'' == k) = true := by
        intro hc
        rw [(hk k'').1.1 hc] at h
        exact hne ((hk k').2.1 h)
      rw [erase, if_pos h, get?, if_neg hkk'']
    · by_cases hc : (k'' == k) = true
      · rw [erase, if_neg h, get?, get?, if_pos hc, if_pos hc]
      · rw [erase, if_neg h, get?, get?, if_neg hc, if_neg hc, ih]

/-- Putting something under a key that a selection of entries leaves out changes nothing in it. -/
theorem filter_set_of_not {k : κ} (hk : Sharp k) {p : κ → Bool} (hp : p k = false) (v : α)
    (t : Table κ α) : (set k v t).filter (p ·.1) = t.filter (p ·.1) := by
  induction t with
  | nil => simp [set, hp]
  | cons e t ih =>
    obtain ⟨k', w⟩ := e
    by_cases h : (k' == k) = true
    · obtain rfl := (hk k').1.1 h
      rw [set, if_pos h, List.filter_cons_of_neg (by simp [hp]), List.filter_cons_of_neg (by simp [hp])]
    · rw [set, if_neg h, List.filter_cons, List.filter_cons, ih]

theorem filter_erase_of_not {k : κ} (hk : Sharp k) {p : κ → Bool} (hp : p k = false)
    (t : Table κ α) : (erase k t).filter (p ·.1) = t.filter (p ·.1) := by
  induction t with
  | nil => rfl
  | cons e t ih =>
    obtain ⟨k', w⟩ := e
    by_cases h : (k' == k) = true
    · obtain rfl := (hk k').1.1 h
      rw [erase, if_pos h, List.filter_cons_of_neg (by simp [hp])]
    · rw [erase, if_neg h, List.filter_cons, List.filter_cons, ih]

/-! ### Many keys -/

theorem merge_cons (t u : Table κ α) (e : κ × α) : merge t (e :: u) = merge (set e.1 e.2 t) u :=
  rfl

theorem merge_concat (t u : Table κ α) (k : κ) (v : α) :
    merge t (u ++ [(k, v)]) = set k v (merge t u) := by
  unfold merge
  rw [List.foldl_append]
  rfl

/-- A key that the second table lacks keeps its value. -/
theorem get?_merge_of_absent {k : κ} (hk : Sharp k) {t u : Table κ α} (h : ∀ e ∈ u, e.1 ≠ k) :
    get? k (merge t u) = get? k t := by
  induction u generalizing t with
  | nil => rfl
  | cons e u ih =>
    have hrest := ih (t := set e.1 e.2 t) fun i hi => h i (List.mem_cons_of_mem _ hi)
    exact hrest.trans (get?_set_of_ne hk (h e List.mem_cons_self) _ _)

/-! ### What holds of every entry -/

/-- A property of entries tells keys apart no better than the table does. -/
def Respects (P : κ × α → Prop) : Prop :=
  ∀ e e' : κ × α, e.2 = e'.2 → (e.1 == e'.1) = true → P e' → P e

variable {P : κ × α → Prop} {t u : Table κ α}

theorem forall_mem_set (hP : Respects P) {k : κ} {v : α} (ht : ∀ e ∈ t, P e) (hv : P (k, v)) :
    ∀ e ∈ set k v t, P e := by
  intro e he
  rcases mem_set he with he | ⟨h2, h1 | h1⟩
  · exact ht e he
  · obtain ⟨k', w⟩ := e
    cases h1
    cases h2
    exact hv
  · exact hP e (k, v) h2 h1 hv

theorem forall_mem_setIfAbsent (hP : Respects P) {k : κ} {v : α} (ht : ∀ e ∈ t, P e)
    (hv : P (k, v)) : ∀ e ∈ setIfAbsent k v t, P e := by
  unfold setIfAbsent
  split
  · exact ht
  · exact forall_mem_set hP ht hv

theorem forall_mem_merge (hP : Respects P) (ht : ∀ e ∈ t, P e) (hu : ∀ e ∈ u, P e) :
    ∀ e ∈ merge t u, P e := by
  induction u generalizing t with
  | nil => exact ht
  | cons e u ih =>
    exact ih (forall_mem_set hP ht (hu e List.mem_cons_self))
      fun i hi => hu i (List.mem_cons_of_mem _ hi)

theorem forall_mem_mergeAbsent (hP : Respects P) (ht : ∀ e ∈ t, P e) (hu : ∀ e ∈ u, P e) :
    ∀ e ∈ mergeAbsent t u, P e := by
  induction u generalizing t with
  | nil => exact ht
  | cons e u ih =>
    exact ih (forall_mem_setIfAbsent hP ht (hu e List.mem_cons_self))
      fun i hi => hu i (List.mem_cons_of_mem _ hi)

theorem forall_mem_erase {k : κ} (ht : ∀ e ∈ t, P e) : ∀ e ∈ erase k t, P e :=
  fun e he => ht e (mem_of_mem_erase he)

/-! ### Which keys there are -/

omit [BEq κ] in
theorem mem_keys_of_mem {k : κ} {v : α} {t : Table κ α} (h : (k, v) ∈ t) : k ∈ t.keys :=
  List.mem_map.2 ⟨(k, v), h, rfl⟩

omit [BEq κ] in
theorem keys_append (t u : Table κ α) : keys (t ++ u) = t.keys ++ u.keys :=
  List.map_append

theorem get?_eq_none_iff {k : κ} (hk : Sharp k) {t : Table κ α} :
    get? k t = none ↔ k ∉ t.keys := by
  induction t with
  | nil => simp [get?, keys]
  | cons e t ih =>
    obtain ⟨k', w⟩ := e
    by_cases h : (k' == k) = true
    · have he : k' = k := (hk k').1.1 h
      simp [get?, keys, he, hk.beq_self]
    · have he : k ≠ k' := fun hc => h ((hk k').1.2 hc.symm)
      simp only [get?, h, Bool.false_eq_true, if_false, ih, keys, List.map_cons, List.mem_cons,
        not_or]
      exact ⟨fun hm => ⟨he, hm⟩, fun hm => hm.2⟩

theorem has_iff_mem_keys {k : κ} (hk : Sharp k) {t : Table κ α} :
    has k t = true ↔ k ∈ t.keys := by
  rw [has, Option.isSome_iff_ne_none, ne_eq, get?_eq_none_iff hk, Classical.not_not]

theorem mem_of_get?_eq_some {k : κ} (hk : Sharp k) {v : α} {t : Table κ α}
    (h : get? k t = some v) : (k, v) ∈ t := by
  induction t with
  | nil => cases h
  | cons e t ih =>
    obtain ⟨k', w⟩ := e
    by_cases hb : (k' == k) = true
    · simp only [get?, hb, if_true, Option.some.injEq] at h
      rw [(hk k').1.1 hb, h]
      exact List.mem_cons_self
    · simp only [get?, hb, Bool.false_eq_true, if_false] at h
      exact List.mem_cons_of_mem _ (ih h)

/-- Without a repeated key, every entry is found under its key. -/
theorem get?_of_mem {k : κ} (hk : Sharp k) {v : α} {t : Table κ α} (ht : t.keys.Nodup)
    (h : (k, v) ∈ t) : get? k t = some v := by
  induction t with
  | nil => cases h
  | cons e t ih =>
    obtain ⟨k', w⟩ := e
    simp only [keys, List.map_cons, List.nodup_cons] at ht
    rcases List.mem_cons.1 h with h | h
    · cases h
      simp [get?, hk.beq_self]
    · have hb : ¬(k' == k) = true := by
        intro hb
        rw [(hk k').1.1 hb] at ht
        exact ht.1 (mem_keys_of_mem h)
      simp only [get?, hb, Bool.false_eq_true, if_false]
      exact ih ht.2 h

/-- Putting in again what is found changes nothing. -/
theorem set_of_get? {k : κ} {v : α} {t : Table κ α} (h : get? k t = some v) :
    set k v t = t := by
  induction t with
  | nil => cases h
  | cons e t ih =>
    obtain ⟨k', w⟩ := e
    by_cases hb : (k' == k) = true
    · simp only [get?, hb, if_true, Option.some.injEq] at h
      rw [set, if_pos hb, h]
    · simp only [get?, hb, Bool.false_eq_true, if_false] at h
      rw [set, if_neg hb, ih h]

/-- A new key goes to the end. -/
theorem set_of_not_mem {k : κ} (hk : Sharp k) {t : Table κ α} (h : k ∉ t.keys) (v : α) :
    set k v t = t ++ [(k, v)] := by
  induction t with
  | nil => rfl
  | cons e t ih =>
    obtain ⟨k', w⟩ := e
    simp only [keys, List.map_cons, List.mem_cons, not_or] at h
    have hb : ¬(k' == k) = true := fun hb => h.1 ((hk k').1.1 hb).symm
    simp only [set, hb, Bool.false_eq_true, if_false, List.cons_append]
    exact congrArg _ (ih h.2)

/-- A key that is there keeps its place. -/
theorem keys_set_of_mem {k : κ} (hk : Sharp k) {t : Table κ α} (h : k ∈ t.keys) (v : α) :
    (set k v t).keys = t.keys := by
  induction t with
  | nil => cases h
  | cons e t ih =>
    obtain ⟨k', w⟩ := e
    by_cases hb : (k' == k) = true
    · simp only [set, hb, if_true, keys, List.map_cons]
    · have hm : k ∈ keys t := by
        rcases List.mem_cons.1 h with h | h
        · exact absurd ((hk k').1.2 h.symm) hb
        · exact h
      simp only [set, hb, Bool.false_eq_true, if_false, keys, List.map_cons]
      exact congrArg _ (ih hm)

theorem nodup_keys_set {k : κ} (hk : Sharp k) {t : Table κ α} (h : t.keys.Nodup) (v : α) :
    (set k v t).keys.Nodup := by
  by_cases hm : k ∈ t.keys
  · rw [keys_set_of_mem hk hm]
    exact h
  · rw [set_of_not_mem hk hm, keys_append]
    refine List.nodup_append.2 ⟨h, by simp [keys], fun a ha b hb hab => ?_⟩
    have hbk : b = k := List.mem_singleton.1 hb
    exact hm (hbk ▸ hab ▸ ha)

theorem setIfAbsent_of_not_mem {k : κ} (hk : Sharp k) {t : Table κ α} (h : k ∉ t.keys) (v : α) :
    setIfAbsent k v t = t ++ [(k, v)] := by
  have habsent : has k t = false := by
    cases hh : has k t with
    | false => rfl
    | true => exact absurd ((has_iff_mem_keys hk).1 hh) h
  rw [setIfAbsent, habsent, if_neg Bool.false_ne_true, set_of_not_mem hk h]

/-- Entries under new keys that differ from each other go to the end one after the other, if each new
key goes to the end. -/
theorem foldl_of_disjoint {put : κ → α → Table κ α → Table κ α}
    (hput : ∀ k v t, Sharp k → k ∉ keys t → put k v t = t ++ [(k, v)]) {t u : Table κ α}
    (hsharp : ∀ e ∈ u, Sharp e.1) (hu : u.keys.Nodup) (h : ∀ k ∈ u.keys, k ∉ t.keys) :
    u.foldl (fun t e => put e.1 e.2 t) t = t ++ u := by
  induction u generalizing t with
  | nil => exact (List.append_nil t).symm
  | cons e u ih =>
    simp only [keys, List.map_cons, List.nodup_cons] at hu
    have hset : put e.1 e.2 t = t ++ [e] :=
      hput e.1 e.2 t (hsharp e List.mem_cons_self) (h e.1 List.mem_cons_self)
    have hrest : ∀ k ∈ keys u, k ∉ (t ++ [e]).keys := by
      intro k hk hc
      rw [keys_append, List.mem_append] at hc
      rcases hc with hc | hc
      · exact h k (List.mem_cons_of_mem _ hk) hc
      · rw [List.mem_singleton.1 hc] at hk
        exact hu.1 hk
    rw [List.foldl_cons, hset, ih (fun i hi => hsharp i (List.mem_cons_of_mem _ hi)) hu.2 hrest,
      List.append_assoc]
    rfl

/-- A table with different keys merged into nothing is the table. -/
theorem merge_empty {u : Table κ α} (hsharp : ∀ e ∈ u, Sharp e.1) (hu : u.keys.Nodup) :
    merge [] u = u :=
  foldl_of_disjoint (fun _ v _ hk h => set_of_not_mem hk h v) hsharp hu (by simp [keys])

theorem mergeAbsent_empty {u : Table κ α} (hsharp : ∀ e ∈ u, Sharp e.1) (hu : u.keys.Nodup) :
    mergeAbsent [] u = u :=
  foldl_of_disjoint (fun _ v _ hk h => setIfAbsent_of_not_mem hk h v) hsharp hu (by simp [keys])

/-! ### What a merged table holds -/

/-- Under a key stands what the second table puts there last, or else what the first table has. -/
theorem get?_merge {k : κ} (hk : Sharp k) (t u : Table κ α) :
    get? k (merge t u) = (get? k (ofPairs u)).or (get? k t) := by
  induction u generalizing t with
  | nil => rfl
  | cons e u ih =>
    obtain ⟨k', v⟩ := e
    have hleft : get? k (merge t ((k', v) :: u)) = _ := ih (set k' v t)
    have hright : get? k (ofPairs ((k', v) :: u)) = _ := ih (set k' v [])
    rw [hleft, hright, Option.or_assoc]
    by_cases h : k' = k
    · rw [h, get?_set_self hk, get?_set_self hk]
      rfl
    · rw [get?_set_of_ne hk h, get?_set_of_ne hk h]
      rfl

/-- Under a key stands what the first table has, or else what stands there first in the second. -/
theorem get?_mergeAbsent {k : κ} (hk : Sharp k) (t u : Table κ α) :
    get? k (mergeAbsent t u) = (get? k t).or (get? k u) := by
  induction u generalizing t with
  | nil => exact (Option.or_none).symm
  | cons e u ih =>
    obtain ⟨k', v⟩ := e
    have hrest : get? k (mergeAbsent t ((k', v) :: u)) = _ := ih (setIfAbsent k' v t)
    rw [hrest, get?, setIfAbsent]
    by_cases h : k' = k
    · subst h
      rw [if_pos hk.beq_self, has]
      cases hget : get? k' t with
      | some w => simp [hget]
      | none => simp [get?_set_self hk]
    · have hkk' : ¬(k' == k) = true := fun hc => h ((hk k').1.1 hc)
      rw [if_neg hkk']
      split
      · rfl
      · rw [get?_set_of_ne hk h]

/-- A key stands in a table at most once. -/
def Once (k : κ) : Table κ α → Prop
  | [] => True
  | e :: t => (e.1 = k → k ∉ keys t) ∧ Once k t

omit [BEq κ] in
theorem once_of_not_mem {k : κ} {t : Table κ α} (h : k ∉ t.keys) : Once k t := by
  induction t with
  | nil => trivial
  | cons e t ih =>
    simp only [keys, List.map_cons, List.mem_cons, not_or] at h
    exact ⟨fun _ => h.2, ih h.2⟩

omit [BEq κ] in
theorem once_singleton (k : κ) (e : κ × α) : Once k [e] :=
  ⟨fun _ => List.not_mem_nil, trivial⟩

omit [BEq κ] in
/-- In a table without a repeated key every key stands once. -/
theorem once_of_nodup {k : κ} {t : Table κ α} (h : t.keys.Nodup) : Once k t := by
  induction t with
  | nil => trivial
  | cons e t ih =>
    obtain ⟨hnew, hrest⟩ := List.nodup_cons.1 h
    exact ⟨fun hk => hk ▸ hnew, ih hrest⟩

omit [BEq κ] in
/-- A table in which every key stands once has no repeated key. -/
theorem nodup_keys_of_once {t : Table κ α} (h : ∀ e ∈ t, Once e.1 t) : t.keys.Nodup := by
  induction t with
  | nil => exact List.nodup_nil
  | cons e t ih =>
    exact List.nodup_cons.2 ⟨(h e List.mem_cons_self).1 rfl,
      ih fun i hi => (h i (List.mem_cons_of_mem _ hi)).2⟩

theorem Once.set {k : κ} (hk : Sharp k) {t : Table κ α} (h : Once k t) (k' : κ) (v : α) :
    Once k (set k' v t) := by
  induction t with
  | nil => exact ⟨fun _ => by simp [keys], trivial⟩
  | cons e t ih =>
    obtain ⟨k'', w⟩ := e
    by_cases hb : (k'' == k') = true
    · rw [Table.set, if_pos hb]
      exact h
    · rw [Table.set, if_neg hb]
      refine ⟨fun he => ?_, ih h.2⟩
      have hne : k' ≠ k := by
        rintro rfl
        exact hb ((hk k'').1.2 he)
      rw [← get?_eq_none_iff hk, get?_set_of_ne hk hne, get?_eq_none_iff hk]
      exact h.1 he

theorem Once.merge {k : κ} (hk : Sharp k) {t : Table κ α} (h : Once k t) (u : Table κ α) :
    Once k (merge t u) := by
  induction u generalizing t with
  | nil => exact h
  | cons e u ih => exact ih (h.set hk e.1 e.2)

theorem Once.erase {k : κ} {t : Table κ α} (h : Once k t) (k' : κ) : Once k (erase k' t) := by
  have hsub : ∀ t : Table κ α, k ∈ keys (Table.erase k' t) → k ∈ keys t := by
    intro t hk
    obtain ⟨e, he, rfl⟩ := List.mem_map.1 hk
    exact List.mem_map.2 ⟨e, mem_of_mem_erase he, rfl⟩
  induction t with
  | nil => trivial
  | cons e t ih =>
    obtain ⟨k'', w⟩ := e
    by_cases hb : (k'' == k') = true
    · rw [Table.erase, if_pos hb]
      exact h.2
    · rw [Table.erase, if_neg hb]
      exact ⟨fun he hk => h.1 he (hsub t hk), ih h.2⟩

theorem Once.setIfAbsent {k : κ} (hk : Sharp k) {t : Table κ α} (h : Once k t) (k' : κ) (v : α) :
    Once k (setIfAbsent k' v t) := by
  unfold Table.setIfAbsent
  split
  · exact h
  · exact h.set hk k' v

theorem Once.mergeAbsent {k : κ} (hk : Sharp k) {t : Table κ α} (h : Once k t) (u : Table κ α) :
    Once k (mergeAbsent t u) := by
  induction u generalizing t with
  | nil => exact h
  | cons e u ih => exact ih (h.setIfAbsent hk e.1 e.2)

/-- A key that is there at most once holds the same if the entries are put in one after the other. -/
theorem Once.get?_ofPairs {k : κ} (hk : Sharp k) {u : Table κ α} (h : Once k u) :
    get? k (ofPairs u) = get? k u := by
  induction u with
  | nil => rfl
  | cons e u ih =>
    obtain ⟨k', v⟩ := e
    have hmerge : get? k (ofPairs ((k', v) :: u)) = _ := get?_merge hk (Table.set k' v []) u
    rw [hmerge, ih h.2]
    by_cases he : k' = k
    · rw [he, (get?_eq_none_iff hk).2 (h.1 he), get?_set_self hk, get?, if_pos hk.beq_self]
      rfl
    · have hb : ¬(k' == k) = true := fun hb => he ((hk k').1.1 hb)
      have hskip : get? k ((k', v) :: u) = get? k u := if_neg hb
      rw [get?_set_of_ne hk he, hskip]
      exact Option.or_none

/-- Under a key that the second table has at most once stands what the second table has, or else what
the first one has. -/
theorem Once.get?_merge {k : κ} (hk : Sharp k) {u : Table κ α} (h : Once k u) (t : Table κ α) :
    get? k (Table.merge t u) = (get? k u).or (get? k t) := by
  rw [Table.get?_merge hk, h.get?_ofPairs hk]

/-! ### Values mapped -/

section MapValues

variable {β : Type}

/-- A table with a function applied to its values. -/
def mapValues (f : α → β) (t : Table κ α) : Table κ β :=
  t.map fun e => (e.1, f e.2)

variable (f : α → β) (k : κ) (v : α) (t u : Table κ α)

theorem get?_mapValues : get? k (mapValues f t) = (get? k t).map f := by
  induction t with
  | nil => rfl
  | cons e t ih =>
    show (if e.1 == k then some (f e.2) else get? k (mapValues f t)) =
      (if e.1 == k then some e.2 else get? k t).map f
    split
    · rfl
    · exact ih

theorem mapValues_set : mapValues f (set k v t) = set k (f v) (mapValues f t) := by
  induction t with
  | nil => rfl
  | cons e t ih =>
    show mapValues f (if e.1 == k then (e.1, v) :: t else e :: set k v t) =
      if e.1 == k then (e.1, f v) :: mapValues f t else (e.1, f e.2) :: set k (f v) (mapValues f t)
    split
    · rfl
    · exact congrArg _ ih

theorem mapValues_setIfAbsent :
    mapValues f (setIfAbsent k v t) = setIfAbsent k (f v) (mapValues f t) := by
  have hhas : has k (mapValues f t) = has k t := by
    rw [has, get?_mapValues, Option.isSome_map, has]
  rw [setIfAbsent, setIfAbsent, hhas]
  split
  · rfl
  · exact mapValues_set f k v t

theorem mapValues_erase : mapValues f (erase k t) = erase k (mapValues f t) := by
  induction t with
  | nil => rfl
  | cons e t ih =>
    show mapValues f (if e.1 == k then t else e :: erase k t) =
      if e.1 == k then mapValues f t else (e.1, f e.2) :: erase k (mapValues f t)
    split
    · rfl
    · exact congrArg _ ih

theorem mapValues_merge : mapValues f (merge t u) = merge (mapValues f t) (mapValues f u) := by
  induction u generalizing t with
  | nil => rfl
  | cons e u ih =>
    have hrest := ih (set e.1 e.2 t)
    rw [mapValues_set] at hrest
    exact hrest

theorem mapValues_mergeAbsent :
    mapValues f (mergeAbsent t u) = mergeAbsent (mapValues f t) (mapValues f u) := by
  induction u generalizing t with
  | nil => rfl
  | cons e u ih =>
    have hrest := ih (setIfAbsent e.1 e.2 t)
    rw [mapValues_setIfAbsent] at hrest
    exact hrest

end MapValues

/-! ### Keys that compare by equality -/

section Lawful

variable [LawfulBEq κ]

theorem get?_set [DecidableEq κ] (k k' : κ) (v : α) (t : Table κ α) :
    get? k' (set k v t) = if k' = k then some v else get? k' t := by
  by_cases h : k' = k
  · rw [if_pos h, h, get?_set_self (sharp_of_lawful k)]
  · rw [if_neg h, get?_set_of_ne (sharp_of_lawful k') (Ne.symm h)]

/-- The keys of a table after a key has been set. -/
theorem keys_set (k : κ) (v : α) (t : Table κ α) :
    (set k v t).keys = if k ∈ t.keys then t.keys else t.keys ++ [k] := by
  split
  · rename_i h
    exact keys_set_of_mem (sharp_of_lawful k) h v
  · rename_i h
    rw [set_of_not_mem (sharp_of_lawful k) h, keys_append]
    rfl

/-- Which keys there are after a key has been set depends on the keys before alone. -/
theorem keys_set_congr {t u : Table κ α} (h : t.keys = u.keys) (k : κ) (v w : α) :
    (set k v t).keys = (set k w u).keys := by
  rw [keys_set, keys_set, h]

end Lawful

end Table

/-! ### Attributes -/

namespace Json

open Table

/-- A text is taken for no other key. -/
theorem Key.sharp_text (t : Text) : Sharp (Key.text t) := by
  intro k
  constructor
  · show Key.same k (.text t) = true ↔ k = .text t
    cases k <;> simp [Key.same, Key.asInt?]
  · show Key.same (.text t) k = true ↔ k = .text t
    cases k with
    | text s => simp [Key.same, Key.asInt?, eq_comm]
    | null => simp [Key.same, Key.asInt?]
    | bool b => simp [Key.same, Key.asInt?]
    | int n => simp [Key.same, Key.asInt?]
    | float x => simp [Key.same, Key.asInt?]

@[simp] theorem Key.text_beq_self (t : Text) : (Key.text t == Key.text t) = true :=
  (Key.sharp_text t).beq_self

namespace Entries

theorem attr?_put_self (name : Text) (value : Json) (es : Entries) :
    (es.put name value).attr? name = some value :=
  get?_set_self (Key.sharp_text name) value es

theorem attr?_put_of_ne {name other : Text} (h : other ≠ name) (value : Json) (es : Entries) :
    (es.put other value).attr? name = es.attr? name :=
  get?_set_of_ne (Key.sharp_text name) (fun hc => h (Key.text.inj hc)) value es

end Entries

end Json

end AvroJsonSchema
