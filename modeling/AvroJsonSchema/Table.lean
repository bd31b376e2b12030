/-!
# Tables in order of insertion

An object of a schema, the definitions of a document and the named types of a conversion are
tables whose order shows in the output.  A key keeps the place and the spelling of its first
insertion and takes the value of its last one.

* **`Table.get?`**, **`Table.has`**: what stands under a key.
* **`Table.set`**: a value put under a key, in its old place or at the end.
* **`Table.setIfAbsent`**, **`Table.erase`**, **`Table.merge`**, **`Table.mergeAbsent`**.
* **`Table.mem_of_get?`**: what is found under a key is an entry of the table.
-/

namespace AvroJsonSchema

/-- Keys with their values, in order. -/
abbrev Table (κ α : Type) := List (κ × α)

namespace Table

variable {κ α : Type} [BEq κ]

/-- The value under a key. -/
def get? (k : κ) : Table κ α → Option α
  | [] => none
  | (k', v) :: t => if k' == k then some v else get? k t

/-- Whether there is a value under a key. -/
def has (k : κ) (t : Table κ α) : Bool :=
  (get? k t).isSome

/-- Puts a value under a key. -/
def set (k : κ) (v : α) : Table κ α → Table κ α
  | [] => [(k, v)]
  | (k', w) :: t => if k' == k then (k', v) :: t else (k', w) :: set k v t

/-- Puts a value under a key that has none. -/
def setIfAbsent (k : κ) (v : α) (t : Table κ α) : Table κ α :=
  if has k t then t else set k v t

/-- Takes a key away. -/
def erase (k : κ) : Table κ α → Table κ α
  | [] => []
  | (k', w) :: t => if k' == k then t else (k', w) :: erase k t

/-- Puts the entries of a second table into a first one. -/
def merge (t u : Table κ α) : Table κ α :=
  u.foldl (fun t e => set e.1 e.2 t) t

/-- Puts those entries of a second table into a first one whose keys it lacks. -/
def mergeAbsent (t u : Table κ α) : Table κ α :=
  u.foldl (fun t e => setIfAbsent e.1 e.2 t) t

/-- The table that some pairs give when they are put in one after the other. -/
def ofPairs (pairs : List (κ × α)) : Table κ α :=
  merge [] pairs

/-- The keys in order. -/
def keys (t : Table κ α) : List κ :=
  t.map Prod.fst

theorem mem_of_get? {k : κ} {v : α} {t : Table κ α} (h : get? k t = some v) :
    ∃ k', (k', v) ∈ t := by
  induction t with
  | nil => simp [get?] at h
  | cons e t ih =>
    obtain ⟨k', w⟩ := e
    by_cases hk : k' == k
    · simp only [get?, hk, if_true, Option.some.injEq] at h
      exact ⟨k', by simp [h]⟩
    · simp only [get?, hk] at h
      obtain ⟨k'', hm⟩ := ih h
      exact ⟨k'', List.mem_cons_of_mem _ hm⟩

end Table

end AvroJsonSchema
