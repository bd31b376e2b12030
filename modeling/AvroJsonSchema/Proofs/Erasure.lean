import AvroJsonSchema.Proofs.Positions

/-!
# Documents without what the switches govern

Three switches decide about one keyword each: whether logical types name a class, whether records
are closed and whether an empty list of required properties is written.  A document is walked along
its schemas and these keywords are erased; what stands under other keys is left as it is, in the
same order.  Putting an entry into a schema and then erasing is erasing and then putting in what is
left of the entry, unless the entry is one of those that are erased.

* **`Json.untoggled`**: a document without the keywords that the switches govern.
* **`Json.Entries.core`**: what is left of the entries of a schema.  **`Json.Entries.core_set`**,
  **`Json.Entries.core_mergeAbsent`**, **`Json.Entries.core_merge_of_new`**: how it changes.
* **`Json.Entries.Erasable`**: entries of which nothing else is erased.
* **`Json.Entries.Alike`**: entries of which the same is left.
-/

namespace AvroJsonSchema

open Table

namespace Json

/-- What a value of a document is to its schemas. -/
inductive Place where
  | schema
  /-- An object whose values are schemas. -/
  | table
  /-- A list of schemas. -/
  | list
  | other
deriving DecidableEq

/-- What the value under a key is. -/
def Place.under (place : Place) (key : Key) : Place :=
  match place, key with
  | .schema, .text keyword =>
    if tableKeywords.contains keyword then .table
    else if schemaKeywords.contains keyword then .schema
    else if listKeywords.contains keyword then .list
    else .other
  | .table, _ => .schema
  | _, _ => .other

/-- Whether an object is the schema of a record. -/
def Entries.isRecordNode (entries : Entries) : Bool :=
  has (.text "title") entries && has (.text "properties") entries

/-- The keywords that the switches decide about. -/
def toggledKeywords : List Text :=
  ["javaType", "additionalProperties", "required"]

/-- Whether an entry admits no properties but those listed, or lists none as required. -/
def closes : Key × Json → Bool
  | (key, .bool false) => key = .text "additionalProperties"
  | (key, .arr []) => key = .text "required"
  | _ => false

/-- Whether an entry of a schema is governed by a switch: a class for code generators anywhere, and
on records what closes them or lists no required property. -/
def isToggled (record : Bool) (e : Key × Json) : Bool :=
  e.1 = .text "javaType" || (record && closes e)

mutual

/-- A value of a document without the entries that the switches govern. -/
def untoggled (place : Place) : Json → Json
  | .obj entries =>
    match place with
    | .schema =>
      .obj ((untoggledEntries .schema entries).filter (!isToggled (Entries.isRecordNode entries) ·))
    | .table => .obj (untoggledEntries .table entries)
    | _ => .obj entries
  | .arr items =>
    match place with
    | .list => .arr (untoggledItems items)
    | _ => .arr items
  | j => j

/-- Some schemas without the entries that the switches govern. -/
def untoggledItems : List Json → List Json
  | [] => []
  | item :: items => untoggled .schema item :: untoggledItems items

/-- The entries of an object, each with its value without what the switches govern. -/
def untoggledEntries (place : Place) : List (Key × Json) → Entries
  | [] => []
  | (key, value) :: entries =>
    (key, untoggled (place.under key) value) :: untoggledEntries place entries

end

/-- A key that a switch decides about. -/
def Key.IsToggled (key : Key) : Prop :=
  ∃ name ∈ toggledKeywords, key = .text name

instance (key : Key) : Decidable key.IsToggled :=
  inferInstanceAs (Decidable (∃ name ∈ toggledKeywords, key = .text name))

theorem key_of_closes {e : Key × Json} (h : closes e = true) :
    e.1 = .text "additionalProperties" ∨ e.1 = .text "required" := by
  unfold closes at h
  split at h
  · exact .inl (of_decide_eq_true h)
  · exact .inr (of_decide_eq_true h)
  · cases h

theorem isToggled_of_closes {e : Key × Json} (h : closes e = true) : e.1.IsToggled := by
  rcases key_of_closes h with h | h <;> exact h ▸ ⟨_, by decide, rfl⟩

theorem key_of_isToggled {record : Bool} {e : Key × Json} (h : isToggled record e = true) :
    e.1.IsToggled := by
  rw [isToggled, Bool.or_eq_true, Bool.and_eq_true] at h
  rcases h with h | ⟨-, h⟩
  · exact ⟨_, by decide, of_decide_eq_true h⟩
  · exact isToggled_of_closes h

theorem not_isToggled {record : Bool} {e : Key × Json} (h : ¬e.1.IsToggled) :
    isToggled record e = false := by
  rw [← Bool.not_eq_true]
  exact fun ht => h (key_of_isToggled ht)

/-- A key that is taken for another one is governed as that one. -/
theorem Key.IsToggled.of_beq {key key' : Key} (h : key.IsToggled)
    (hk : (key == key') = true) : key' = key := by
  obtain ⟨name, -, rfl⟩ := h
  exact (Key.sharp_text name key').2.1 hk

/-! ### What is left of some entries -/

/-- An entry of a schema, with its value without what the switches govern. -/
def untoggledEntry (e : Key × Json) : Key × Json :=
  (e.1, untoggled (Place.schema.under e.1) e.2)

theorem untoggledItems_eq (items : List Json) :
    untoggledItems items = items.map (untoggled .schema) := by
  induction items with
  | nil => rw [untoggledItems, List.map_nil]
  | cons item items ih => rw [untoggledItems, ih, List.map_cons]

theorem untoggledEntries_table (entries : Entries) :
    untoggledEntries .table entries = mapValues (untoggled .schema) entries := by
  induction entries with
  | nil => rw [untoggledEntries]; rfl
  | cons e entries ih => rw [untoggledEntries, ih]; rfl

theorem untoggledEntries_schema (entries : Entries) :
    untoggledEntries .schema entries = entries.map untoggledEntry := by
  induction entries with
  | nil => rw [untoggledEntries, List.map_nil]
  | cons e entries ih => rw [untoggledEntries, ih]; rfl

theorem untoggled_schema (entries : Entries) :
    untoggled .schema (.obj entries) =
      .obj ((entries.map untoggledEntry).filter (!isToggled entries.isRecordNode ·)) := by
  rw [untoggled, untoggledEntries_schema]

theorem untoggled_table (entries : Entries) :
    untoggled .table (.obj entries) = .obj (mapValues (untoggled .schema) entries) := by
  rw [untoggled, untoggledEntries_table]

theorem untoggled_list (items : List Json) :
    untoggled .list (.arr items) = .arr (items.map (untoggled .schema)) := by
  rw [untoggled, untoggledItems_eq]

/-- What is left of a value closes a record if and only if the value does. -/
theorem closes_untoggledEntry (e : Key × Json) : closes (untoggledEntry e) = closes e := by
  obtain ⟨key, value⟩ := e
  rw [untoggledEntry]
  cases value with
  | obj entries => cases Place.schema.under key <;> simp [untoggled, closes]
  | arr items =>
    cases Place.schema.under key with
    | list =>
      rw [untoggled_list]
      cases items <;> rfl
    | _ => simp [untoggled]
  | _ => simp [untoggled]

namespace Entries

/-- What is left of the entries of a schema when all are erased that a switch may govern. -/
def core (entries : Entries) : Entries :=
  (entries.map untoggledEntry).filter (!isToggled true ·)

theorem core_cons (e : Key × Json) (entries : Entries) :
    core (e :: entries) = if isToggled true e then core entries else untoggledEntry e :: core entries := by
  have hsame : isToggled true (untoggledEntry e) = isToggled true e := by
    rw [isToggled, isToggled, closes_untoggledEntry]
    rfl
  rw [core, List.map_cons, List.filter_cons, hsame]
  cases isToggled true e <;> rfl

theorem core_append (t u : Entries) : core (t ++ u) = core t ++ core u := by
  rw [core, List.map_append, List.filter_append]
  rfl

theorem core_of_free {u : Entries} (hu : ∀ e ∈ u, ¬e.1.IsToggled) : core u = u.map untoggledEntry := by
  refine List.filter_eq_self.2 fun e he => ?_
  obtain ⟨e', he', rfl⟩ := List.mem_map.1 he
  have hkey : ¬(untoggledEntry e').1.IsToggled := hu e' he'
  rw [not_isToggled hkey, Bool.not_false]

variable {key : Key} {value : Json} {t t' u : Entries}

/-- What is under a key is under any key that is taken for it. -/
theorem under_of_beq {key' : Key} (h : (key' == key) = true) (place : Place) :
    place.under key' = place.under key := by
  by_cases htext : ∃ name, key = .text name
  · obtain ⟨name, rfl⟩ := htext
    rw [(Key.sharp_text name key').1.1 h]
  · have htext' : ¬∃ name, key' = .text name := by
      rintro ⟨name, rfl⟩
      exact htext ⟨name, (Key.sharp_text name key).2.1 h⟩
    unfold Place.under
    cases place <;> cases key <;> cases key' <;> simp_all

theorem core_set (hk : ¬key.IsToggled) (value : Json) (t : Entries) :
    core (t.set key value) = (core t).set key (untoggledEntry (key, value)).2 := by
  induction t with
  | nil => rw [Table.set, core_cons, not_isToggled hk]; rfl
  | cons e t ih =>
    obtain ⟨key', w⟩ := e
    by_cases hb : (key' == key) = true
    · have hk' : ¬key'.IsToggled := fun h => hk (h.of_beq hb ▸ h)
      rw [Table.set, if_pos hb, core_cons, core_cons, not_isToggled hk', not_isToggled hk']
      show (key', untoggled (Place.schema.under key') value) :: core t =
        Table.set key _ ((key', _) :: core t)
      rw [Table.set, if_pos hb, under_of_beq hb]
      rfl
    · rw [Table.set, if_neg hb, core_cons, core_cons, ih]
      split
      · rfl
      · show _ = Table.set key _ ((key', _) :: core t)
        rw [Table.set, if_neg hb]
        rfl

theorem has_core (hk : ¬key.IsToggled) (t : Entries) : has key (core t) = has key t := by
  induction t with
  | nil => rfl
  | cons e t ih =>
    have hcons : ∀ (e : Key × Json) (t : Entries),
        has key (e :: t) = if e.1 == key then true else has key t := by
      intro e t
      rw [has, get?]
      split <;> rfl
    rw [core_cons, hcons]
    split
    · rename_i htoggled
      have hb : ¬(e.1 == key) = true := fun hb =>
        hk ((key_of_isToggled htoggled).of_beq hb ▸ key_of_isToggled htoggled)
      rw [if_neg hb, ih]
    · rw [hcons, ih]
      rfl

theorem core_setIfAbsent (hk : ¬key.IsToggled) (value : Json) (t : Entries) :
    core (t.setIfAbsent key value) = (core t).setIfAbsent key (untoggledEntry (key, value)).2 := by
  rw [setIfAbsent, setIfAbsent, has_core hk]
  split
  · rfl
  · exact core_set hk value t

theorem core_erase (hk : ¬key.IsToggled) (t : Entries) : core (t.erase key) = (core t).erase key := by
  induction t with
  | nil => rfl
  | cons e t ih =>
    obtain ⟨key', w⟩ := e
    by_cases hb : (key' == key) = true
    · have hk' : ¬key'.IsToggled := fun h => hk (h.of_beq hb ▸ h)
      rw [Table.erase, if_pos hb, core_cons, not_isToggled hk']
      show core t = Table.erase key ((key', _) :: core t)
      rw [Table.erase, if_pos hb]
    · rw [Table.erase, if_neg hb, core_cons, core_cons, ih]
      split
      · rfl
      · show _ = Table.erase key ((key', _) :: core t)
        rw [Table.erase, if_neg hb]
        rfl

/-- What is put in under a new key is left at the end, unless it is governed. -/
theorem core_set_of_new (hk : Sharp key) (h : key ∉ keys t) (value : Json) :
    core (t.set key value) = core t ++ core [(key, value)] := by
  rw [set_of_not_mem hk h, core_append]

/-- A class for code generators leaves nothing, whether it is new or not. -/
theorem core_set_javaType (value : Json) (t : Entries) :
    core (t.set (.text "javaType") value) = core t := by
  have hclass : ∀ w : Json, isToggled true (Key.text "javaType", w) = true := fun w => rfl
  induction t with
  | nil => rw [Table.set, core_cons, hclass, if_pos rfl]
  | cons e t ih =>
    obtain ⟨key', w⟩ := e
    by_cases hb : (key' == Key.text "javaType") = true
    · rw [(Key.sharp_text _ key').1.1 hb, Table.set, if_pos (Key.text_beq_self _), core_cons, core_cons,
        hclass, hclass]
      rfl
    · rw [Table.set, if_neg hb, core_cons, core_cons, ih]

/-- Entries under keys that no switch decides about are put in after the others. -/
theorem core_merge_of_free (hu : ∀ e ∈ u, ¬e.1.IsToggled) (t : Entries) :
    core (t.merge u) = (core t).merge (u.map untoggledEntry) := by
  induction u generalizing t with
  | nil => rfl
  | cons e u ih =>
    have hrest := ih (fun i hi => hu i (List.mem_cons_of_mem _ hi)) (Table.set e.1 e.2 t)
    rw [core_set (hu e List.mem_cons_self)] at hrest
    exact hrest

/-- A class for code generators leaves nothing among entries that are put in where they are absent. -/
theorem core_mergeAbsent (hu : ∀ e ∈ u, e.1 = Key.text "javaType" ∨ ¬e.1.IsToggled) (t : Entries) :
    core (t.mergeAbsent u) = (core t).mergeAbsent (core u) := by
  induction u generalizing t with
  | nil => rfl
  | cons e u ih =>
    have hrest := ih (fun i hi => hu i (List.mem_cons_of_mem _ hi)) (setIfAbsent e.1 e.2 t)
    rw [core_cons]
    rcases hu e List.mem_cons_self with he | he
    · have hclass : isToggled true e = true := by rw [isToggled, he]; rfl
      have hsame : core (setIfAbsent e.1 e.2 t) = core t := by
        rw [setIfAbsent, he]
        split
        · rfl
        · exact core_set_javaType _ t
      rw [hsame] at hrest
      rw [if_pos hclass]
      exact hrest
    · rw [core_setIfAbsent he] at hrest
      rw [not_isToggled he]
      exact hrest

theorem mem_keys_of_core {key : Key} (h : key ∈ keys (core t)) : key ∈ keys t := by
  obtain ⟨e, he, rfl⟩ := List.mem_map.1 h
  obtain ⟨e', he', rfl⟩ := List.mem_map.1 (List.mem_filter.1 he).1
  exact List.mem_map.2 ⟨e', he', rfl⟩

/-- Entries under governed keys that are there once and are new leave what is left of them. -/
theorem core_merge_of_new (honce : ∀ name ∈ toggledKeywords, Once (Key.text name) u)
    (hnew : ∀ name ∈ toggledKeywords, Key.text name ∈ keys u → Key.text name ∉ keys t) :
    core (t.merge u) = (core t).merge (core u) := by
  induction u generalizing t with
  | nil => rfl
  | cons e u ih =>
    have hrest : (∀ name ∈ toggledKeywords, Key.text name ∈ keys u →
        Key.text name ∉ keys (Table.set e.1 e.2 t)) →
        core (t.merge (e :: u)) = (core (Table.set e.1 e.2 t)).merge (core u) :=
      fun h => ih (fun name hn => (honce name hn).2) h
    have hkeys : ∀ name ∈ toggledKeywords, Key.text name ∈ keys u →
        Key.text name ∉ keys (Table.set e.1 e.2 t) := by
      intro name hn hu
      have hsharp := Key.sharp_text name
      have hne : e.1 ≠ Key.text name := fun he => (honce name hn).1 he hu
      rw [← get?_eq_none_iff hsharp, get?_set_of_ne hsharp hne, get?_eq_none_iff hsharp]
      exact hnew name hn (List.mem_cons_of_mem _ hu)
    rw [hrest hkeys, core_cons]
    by_cases hk : e.1.IsToggled
    · obtain ⟨name, hn, hkey⟩ := hk
      have hsharp : Sharp e.1 := hkey ▸ Key.sharp_text name
      have habsent : e.1 ∉ keys t := by
        rw [hkey]
        exact hnew name hn (hkey ▸ List.mem_cons_self)
      rw [set_of_not_mem hsharp habsent, core_append, core_cons]
      split
      · show merge (core t ++ []) _ = _
        rw [List.append_nil]
      · show merge (core t ++ [untoggledEntry e]) _ = merge (Table.set e.1 _ (core t)) _
        rw [set_of_not_mem hsharp fun h => habsent (mem_keys_of_core h)]
        rfl
    · rw [core_set hk, not_isToggled hk]
      rfl

/-! ### When everything is erased that may be -/

/-- Entries that close a record, or list none of its properties as required, are those of a record. -/
def Erasable (t : Entries) : Prop :=
  t.isRecordNode = true ∨ ∀ e ∈ t, closes e = false

theorem untoggled_of_erasable (h : t.Erasable) : untoggled .schema (.obj t) = .obj (core t) := by
  rw [untoggled_schema, core]
  rcases h with h | h
  · rw [h]
  · refine congrArg Json.obj (List.filter_congr fun e he => ?_)
    obtain ⟨e', he', rfl⟩ := List.mem_map.1 he
    simp only [isToggled, closes_untoggledEntry, h e' he', Bool.and_false]

theorem has_set_of_has {name : Text} (h : has (Key.text name) t = true) (key : Key) (value : Json) :
    has (Key.text name) (t.set key value) = true := by
  have hsharp := Key.sharp_text name
  by_cases hk : key = Key.text name
  · rw [has, hk, get?_set_self hsharp]
    rfl
  · rw [has, get?_set_of_ne hsharp hk]
    exact h

theorem isRecordNode_set (h : t.isRecordNode = true) (key : Key) (value : Json) :
    Entries.isRecordNode (t.set key value) = true := by
  rw [isRecordNode, Bool.and_eq_true] at h ⊢
  exact ⟨has_set_of_has h.1 key value, has_set_of_has h.2 key value⟩

theorem closes_set (h : ∀ e ∈ t, closes e = false) (hv : ¬key.IsToggled ∨ closes (key, value) = false) :
    ∀ e ∈ t.set key value, closes e = false := by
  intro e he
  rcases mem_set he with he | ⟨rfl, hk⟩
  · exact h e he
  · rw [← Bool.not_eq_true]
    intro hc
    have hkey : key = e.1 := by
      rcases hk with hk | hk
      · exact hk.symm
      · exact (isToggled_of_closes hc).of_beq hk
    rcases hv with hv | hv
    · exact hv (hkey ▸ isToggled_of_closes hc)
    · rw [hkey, hc] at hv
      cases hv

theorem Erasable.set (h : t.Erasable) (hv : ¬key.IsToggled ∨ closes (key, value) = false) :
    Entries.Erasable (t.set key value) :=
  h.imp (isRecordNode_set · key value) fun h => closes_set h hv

theorem Erasable.setIfAbsent (h : t.Erasable) (hk : ¬key.IsToggled) (value : Json) :
    Entries.Erasable (t.setIfAbsent key value) := by
  unfold Table.setIfAbsent
  split
  · exact h
  · exact h.set (.inl hk)

theorem Erasable.erase (h : t.Erasable) {name : Text} (ht : name ≠ Text.ofString "title")
    (hp : name ≠ Text.ofString "properties") : Entries.Erasable (t.erase (.text name)) := by
  have hhas : ∀ other : Text, name ≠ other →
      has (Key.text other) (t.erase (.text name)) = has (Key.text other) t := by
    intro other hne
    rw [has, get?_erase_of_ne (Key.sharp_text other) fun h => hne (Key.text.inj h), has]
  refine h.imp (fun h => ?_) fun h e he => h e (mem_of_mem_erase he)
  rwa [isRecordNode, hhas _ ht, hhas _ hp]

theorem Erasable.merge (h : t.Erasable) (hu : ∀ e ∈ u, ¬e.1.IsToggled) :
    Entries.Erasable (t.merge u) := by
  induction u generalizing t with
  | nil => exact h
  | cons e u ih =>
    exact ih (h.set (.inl (hu e List.mem_cons_self))) fun i hi => hu i (List.mem_cons_of_mem _ hi)

/-- Entries of which a switch may govern a class for code generators at most. -/
def Open (t : Entries) : Prop :=
  ∀ e ∈ t, e.1 = Key.text "javaType" ∨ ¬e.1.IsToggled

namespace Open

theorem not_mem_keys (h : t.Open) {name : Text} (hn : name ∈ toggledKeywords)
    (hj : name ≠ Text.ofString "javaType") : Key.text name ∉ keys t := by
  intro hk
  obtain ⟨e, he, heq⟩ := List.mem_map.1 hk
  rcases h e he with hc | hc
  · exact hj (Key.text.inj (heq ▸ hc))
  · exact hc ⟨name, hn, heq⟩

theorem erasable (h : t.Open) : t.Erasable := by
  refine .inr fun e he => ?_
  rw [← Bool.not_eq_true]
  intro hc
  rcases h e he with hj | hfree
  · rcases key_of_closes hc with hk | hk <;> exact absurd (hj.symm.trans hk) (by decide)
  · exact hfree (isToggled_of_closes hc)

theorem set (h : t.Open) (hk : key = Key.text "javaType" ∨ ¬key.IsToggled) (value : Json) :
    Entries.Open (t.set key value) := by
  intro e he
  rcases mem_set he with he | ⟨-, heq | heq⟩
  · exact h e he
  · exact heq ▸ hk
  · by_cases ht : e.1.IsToggled
    · exact ht.of_beq heq ▸ hk
    · exact .inr ht

theorem setIfAbsent (h : t.Open) (hk : key = Key.text "javaType" ∨ ¬key.IsToggled) (value : Json) :
    Entries.Open (t.setIfAbsent key value) := by
  unfold Table.setIfAbsent
  split
  · exact h
  · exact h.set hk value

theorem mergeAbsent (h : t.Open) (hu : u.Open) : Entries.Open (t.mergeAbsent u) := by
  induction u generalizing t with
  | nil => exact h
  | cons e u ih =>
    exact ih (h.setIfAbsent (hu e List.mem_cons_self) e.2) fun i hi => hu i (List.mem_cons_of_mem _ hi)

theorem merge (h : t.Open) (hu : u.Open) : Entries.Open (t.merge u) := by
  induction u generalizing t with
  | nil => exact h
  | cons e u ih =>
    exact ih (h.set (hu e List.mem_cons_self) e.2) fun i hi => hu i (List.mem_cons_of_mem _ hi)

end Open

/-- Entries of which the same is left, in the same order. -/
structure Alike (t u : Entries) : Prop where
  left : t.Erasable
  right : u.Erasable
  core : core t = core u

namespace Alike

theorem untoggled (h : t.Alike u) : untoggled .schema (.obj t) = Json.untoggled .schema (.obj u) := by
  rw [untoggled_of_erasable h.left, untoggled_of_erasable h.right, h.core]

theorem set (h : t.Alike u) (hk : ¬key.IsToggled) {value' : Json}
    (hv : untoggledEntry (key, value) = untoggledEntry (key, value')) :
    Entries.Alike (t.set key value) (u.set key value') :=
  ⟨h.left.set (.inl hk), h.right.set (.inl hk), by rw [core_set hk, core_set hk, h.core, hv]⟩

theorem setIfAbsent (h : t.Alike u) (hk : ¬key.IsToggled) (value : Json) :
    Entries.Alike (t.setIfAbsent key value) (u.setIfAbsent key value) :=
  ⟨h.left.setIfAbsent hk value, h.right.setIfAbsent hk value,
    by rw [core_setIfAbsent hk, core_setIfAbsent hk, h.core]⟩

theorem merge (h : t.Alike t') (hu : ∀ e ∈ u, ¬e.1.IsToggled) :
    Entries.Alike (t.merge u) (t'.merge u) :=
  ⟨h.left.merge hu, h.right.merge hu, by rw [core_merge_of_free hu, core_merge_of_free hu, h.core]⟩

end Alike

end Entries

end Json

end AvroJsonSchema
