import AvroJsonSchema.Files.Tree
import AvroJsonSchema.Proofs.Octets
import AvroJsonSchema.Proofs.Tables
import AvroJsonSchema.Proofs.Texts

/-!
# What stands where in a tree of files

A tree is looked at place by place: at each there is a file with its octets, a directory, or nothing.
Putting a file or an empty directory somewhere changes what is seen at that place and nowhere else.
The walk tells every file once, in an order that depends on the places alone, so trees with the same
files are walked alike, whatever else they hold.

* **`FileTree.look`**: what stands at a place.  **`FileTree.look_insert`**: what is seen after a file
  was put somewhere.
* **`FileTree.Proper`**: a tree whose names are names, each once in its directory.
* **`FileTree.mem_walk_iff`**: the walk tells the files of a tree.
* **`FileTree.pairwise_walk`**, **`FileTree.filter_walk_congr`**: the order of the walk.
-/

namespace AvroJsonSchema

open Table AvroJsonSchema.Path

namespace FileTree

/-- What stands at a place. -/
inductive Occupant where
  | file (bytes : List UInt8)
  | directory
deriving DecidableEq

/-- What a tree is at its root. -/
def occupant : FileTree → Occupant
  | .file bytes => .file bytes
  | .dir _ => .directory

/-- What stands at a place of a tree. -/
def look (tree : FileTree) (place : List Text) : Option Occupant :=
  (tree.find? place).map occupant

variable {tree new : FileTree} {entries : List (Text × FileTree)} {name : Text}
  {names place : List Text} {bytes : List UInt8}

/-! ### Finding -/

theorem find?_nil (tree : FileTree) : tree.find? [] = some tree := by
  cases tree <;> rfl

theorem find?_cons (tree : FileTree) (name : Text) (names : List Text) :
    tree.find? (name :: names) = (tree.child? name).bind (find? names) := by
  cases tree with
  | file bytes => rfl
  | dir entries =>
    rw [find?]
    cases child? name (.dir entries) <;> rfl

theorem find?_append (tree : FileTree) (names more : List Text) :
    tree.find? (names ++ more) = (tree.find? names).bind (find? more) := by
  induction names generalizing tree with
  | nil =>
    rw [find?_nil]
    rfl
  | cons name names ih =>
    rw [List.cons_append, find?_cons, find?_cons]
    cases tree.child? name with
    | none => rfl
    | some child => exact ih child

theorem look_nil (tree : FileTree) : tree.look [] = some tree.occupant := by
  rw [look, find?_nil]
  rfl

theorem look_file_cons : (file bytes).look (name :: names) = none :=
  rfl

theorem look_file_ne_directory (bytes : List UInt8) (place : List Text) :
    (file bytes).look place ≠ some .directory := by
  cases place with
  | nil => rw [look_nil]; exact nofun
  | cons name names => rw [look_file_cons]; exact nofun

theorem look_dir_cons :
    (dir entries).look (name :: names) = (get? name entries).bind (look · names) := by
  rw [look, find?_cons]
  show ((get? name entries).bind _).map _ = _
  cases get? name entries <;> rfl

theorem exists_of_look_dir {occupant : Occupant}
    (h : (dir entries).look (name :: names) = some occupant) :
    ∃ child, (name, child) ∈ entries ∧ child.look names = some occupant := by
  rw [look_dir_cons] at h
  obtain ⟨child, hchild, hlook⟩ := Option.bind_eq_some_iff.1 h
  exact ⟨child, mem_of_get?_eq_some (sharp_of_lawful name) hchild, hlook⟩

theorem look_append (tree : FileTree) (names more : List Text) :
    tree.look (names ++ more) = (tree.find? names).bind (look · more) := by
  rw [look, find?_append]
  cases tree.find? names <;> rfl

theorem occupant_eq_file : tree.occupant = .file bytes ↔ tree = .file bytes := by
  cases tree with
  | file b => simp [occupant]
  | dir entries => simp [occupant]

theorem occupant_eq_directory : tree.occupant = .directory ↔ ∃ entries, tree = .dir entries := by
  cases tree with
  | file b => simp [occupant]
  | dir entries => simp [occupant]

theorem look_eq_file_iff : tree.look place = some (.file bytes) ↔
    tree.find? place = some (.file bytes) := by
  rw [look, Option.map_eq_some_iff]
  exact ⟨fun ⟨t, ht, hb⟩ => occupant_eq_file.1 hb ▸ ht, fun h => ⟨_, h, rfl⟩⟩

theorem look_eq_directory_iff : tree.look place = some .directory ↔
    ∃ entries, tree.find? place = some (.dir entries) := by
  rw [look, Option.map_eq_some_iff]
  constructor
  · rintro ⟨t, ht, hd⟩
    obtain ⟨entries, rfl⟩ := occupant_eq_directory.1 hd
    exact ⟨entries, ht⟩
  · rintro ⟨entries, h⟩
    exact ⟨_, h, rfl⟩

/-- Something stands below a directory only. -/
theorem look_of_below {more : List Text} (hne : more ≠ [])
    (h : tree.look (names ++ more) ≠ none) : tree.look names = some .directory := by
  rw [look_append] at h
  cases hfind : tree.find? names with
  | none => rw [hfind] at h; exact absurd rfl h
  | some t =>
    rw [hfind] at h
    cases t with
    | dir entries => rw [look, hfind]; rfl
    | file bytes =>
      obtain ⟨name, more, rfl⟩ := List.exists_cons_of_ne_nil hne
      exact absurd rfl h

/-! ### Putting something somewhere -/

/-- A file or an empty directory, below which nothing stands. -/
def IsLeaf (tree : FileTree) : Prop :=
  ∀ place, place ≠ [] → tree.look place = none

theorem isLeaf_file (bytes : List UInt8) : IsLeaf (.file bytes) := by
  intro place hne
  obtain ⟨name, names, rfl⟩ := List.exists_cons_of_ne_nil hne
  rfl

theorem isLeaf_emptyDir : IsLeaf emptyDir := by
  intro place hne
  obtain ⟨name, names, rfl⟩ := List.exists_cons_of_ne_nil hne
  rfl

theorem insert_nil (tree new : FileTree) : tree.insert [] new = new := by
  cases tree <;> rfl

/-- **A file or an empty directory that is put somewhere is seen there**, and nothing else is seen
to change; the directory has to be there, and no directory in its place. -/
theorem look_insert (hnew : new.IsLeaf) (hne : names ≠ [])
    (hparent : tree.look names.dropLast = some .directory)
    (hfree : tree.look names ≠ some .directory) (place : List Text) :
    (tree.insert names new).look place =
      if place = names then some new.occupant else tree.look place := by
  induction names generalizing tree place with
  | nil => exact absurd rfl hne
  | cons name names ih =>
    obtain ⟨entries, rfl⟩ : ∃ entries, tree = .dir entries := by
      cases tree with
      | dir entries => exact ⟨entries, rfl⟩
      | file bytes => cases names <;> cases hparent
    cases place with
    | nil =>
      rw [if_neg (List.cons_ne_nil _ _).symm, look_nil, look_nil]
      rfl
    | cons other place =>
      rw [insert, look_dir_cons, look_dir_cons, get?_set]
      by_cases hname : other = name
      · subst hname
        have hsame : other :: place = other :: names ↔ place = names :=
          ⟨fun h => (List.cons.inj h).2, fun h => h ▸ rfl⟩
        rw [if_pos rfl, Option.bind_some]
        simp only [hsame]
        rw [look_dir_cons] at hfree
        by_cases hnames : names = []
        · subst hnames
          rw [insert_nil]
          by_cases hplace : place = []
          · rw [if_pos hplace, hplace, look_nil]
          · -- where nothing or a file was, nothing was seen below
            rw [if_neg hplace, hnew place hplace]
            cases hchild : get? other entries with
            | none => rfl
            | some child =>
              rw [hchild, Option.bind_some, look_nil] at hfree
              cases child with
              | dir below => exact absurd rfl hfree
              | file bytes => exact (isLeaf_file bytes place hplace).symm
        · rw [List.dropLast_cons_of_ne_nil hnames, look_dir_cons] at hparent
          cases hchild : get? other entries with
          | none => rw [hchild] at hparent; cases hparent
          | some child =>
            rw [hchild, Option.bind_some] at hparent hfree
            exact ih hnames hparent hfree place
      · rw [if_neg hname, if_neg fun heq => hname (List.cons.inj heq).1]

/-! ### Names -/

/-- A tree in which each directory has names for its entries, and each name once. -/
inductive Proper : FileTree → Prop where
  | file (bytes : List UInt8) : Proper (.file bytes)
  | dir {entries : List (Text × FileTree)} (distinct : (Table.keys entries).Nodup)
      (names : ∀ e ∈ entries, IsName e.1) (below : ∀ e ∈ entries, Proper e.2) :
      Proper (.dir entries)

theorem proper_emptyDir : Proper emptyDir :=
  .dir List.nodup_nil (fun _ h => absurd h List.not_mem_nil) fun _ h => absurd h List.not_mem_nil

theorem get?_eq_some_iff (h : (Table.keys entries).Nodup) :
    get? name entries = some tree ↔ (name, tree) ∈ entries :=
  ⟨mem_of_get?_eq_some (sharp_of_lawful name), get?_of_mem (sharp_of_lawful name) h⟩

theorem Proper.find? (h : tree.Proper) {place : List Text} {found : FileTree}
    (hfind : tree.find? place = some found) : found.Proper ∧ ∀ name ∈ place, IsName name := by
  induction place generalizing tree with
  | nil =>
    rw [find?_nil] at hfind
    exact ⟨Option.some.inj hfind ▸ h, fun _ hn => absurd hn List.not_mem_nil⟩
  | cons name place ih =>
    rw [find?_cons] at hfind
    cases h with
    | file bytes => cases hfind
    | @dir entries distinct names below =>
      obtain ⟨child, hchild, hfound⟩ := Option.bind_eq_some_iff.1 hfind
      have hmem := (get?_eq_some_iff distinct).1 hchild
      obtain ⟨hproper, hnames⟩ := ih (below _ hmem) hfound
      exact ⟨hproper, List.forall_mem_cons.2 ⟨names _ hmem, hnames⟩⟩

theorem Proper.names_of_look (h : tree.Proper) (hlook : tree.look place ≠ none) :
    ∀ name ∈ place, IsName name := by
  cases hfind : tree.find? place with
  | none => rw [look, hfind] at hlook; exact absurd rfl hlook
  | some found => exact (h.find? hfind).2

theorem Proper.insert (h : tree.Proper) (hnew : new.Proper) (hnames : ∀ name ∈ names, IsName name) :
    (tree.insert names new).Proper := by
  induction names generalizing tree with
  | nil => rwa [insert_nil]
  | cons name names ih =>
    cases h with
    | file bytes => exact .file bytes
    | @dir entries distinct isName below =>
      obtain ⟨hname, hrest⟩ := List.forall_mem_cons.1 hnames
      have hchild : ((get? name entries).getD emptyDir).Proper := by
        cases hget : get? name entries with
        | none => exact proper_emptyDir
        | some child => exact below _ ((get?_eq_some_iff distinct).1 hget)
      have hmem : ∀ e ∈ set name (((get? name entries).getD emptyDir).insert names new) entries,
          e ∈ entries ∨ e = (name, ((get? name entries).getD emptyDir).insert names new) :=
        fun e he => mem_set_sharp (sharp_of_lawful name) he
      refine .dir (nodup_keys_set (sharp_of_lawful name) distinct _) (fun e he => ?_) fun e he => ?_
      · rcases hmem e he with he | rfl
        · exact isName e he
        · exact hname
      · rcases hmem e he with he | rfl
        · exact below e he
        · exact ih hchild hrest

/-! ### The walk -/

/-- The files below one entry of a directory. -/
def walkEntry (e : Text × FileTree) : List (List Text × List UInt8) :=
  e.2.walk.map fun file => (e.1 :: file.1, file.2)

theorem walkEntries_eq_map (entries : List (Text × FileTree)) :
    walkEntries entries = entries.map fun e => (e.1, e.2.isFile, walkEntry e) := by
  induction entries with
  | nil => rw [walkEntries]; rfl
  | cons e entries ih =>
    obtain ⟨name, tree⟩ := e
    rw [walkEntries, ih]
    rfl

theorem map_byName {α β : Type} (f : Text × α → β) (entries : List (Text × α)) :
    byName (entries.map fun e => (e.1, f e)) = (byName entries).map fun e => (e.1, f e) := by
  unfold byName
  rw [List.map_mergeSort]
  intro a _ b _
  rfl

/-- The walk through a directory. -/
theorem walk_dir (entries : List (Text × FileTree)) :
    (dir entries).walk =
      (byName (entries.filter (·.2.isFile))).flatMap walkEntry ++
      (byName (entries.filter (!·.2.isFile))).flatMap walkEntry := by
  rw [walk]
  simp only [walkEntries_eq_map, List.filter_map, map_byName (fun e => (e.2.isFile, walkEntry e)),
    List.flatMap_map]
  rfl

theorem mem_byName {α : Type} {entries : List (Text × α)} {e : Text × α} :
    e ∈ byName entries ↔ e ∈ entries :=
  List.mem_mergeSort

theorem mem_walk_dir {file : List Text × List UInt8} :
    file ∈ (dir entries).walk ↔ ∃ e ∈ entries, file ∈ walkEntry e := by
  rw [walk_dir, List.mem_append, List.mem_flatMap, List.mem_flatMap]
  simp only [mem_byName, List.mem_filter]
  constructor
  · rintro (⟨e, ⟨he, -⟩, hfile⟩ | ⟨e, ⟨he, -⟩, hfile⟩) <;> exact ⟨e, he, hfile⟩
  · rintro ⟨e, he, hfile⟩
    cases hkind : e.2.isFile with
    | true => exact .inl ⟨e, ⟨he, hkind⟩, hfile⟩
    | false => exact .inr ⟨e, ⟨he, by rw [hkind]; rfl⟩, hfile⟩

theorem mem_walkEntry {e : Text × FileTree} :
    (place, bytes) ∈ walkEntry e ↔ ∃ names, place = e.1 :: names ∧ (names, bytes) ∈ e.2.walk := by
  rw [walkEntry, List.mem_map]
  constructor
  · rintro ⟨⟨names, b⟩, hmem, heq⟩
    obtain ⟨rfl, rfl⟩ := Prod.mk.inj heq
    exact ⟨names, rfl, hmem⟩
  · rintro ⟨names, rfl, hmem⟩
    exact ⟨(names, bytes), hmem, rfl⟩

theorem place_ne_nil_of_mem_walk (h : (place, bytes) ∈ (dir entries).walk) : place ≠ [] := by
  obtain ⟨e, -, he⟩ := mem_walk_dir.1 h
  obtain ⟨names, rfl, -⟩ := mem_walkEntry.1 he
  exact List.cons_ne_nil _ _

/-- **The walk tells the files of a tree.** -/
theorem mem_walk_iff (h : tree.Proper) :
    (place, bytes) ∈ tree.walk ↔ tree.look place = some (.file bytes) := by
  induction h generalizing place with
  | file b =>
    rw [walk, List.mem_singleton, Prod.mk.injEq]
    cases place with
    | nil =>
      rw [look_nil, Option.some.injEq, occupant_eq_file, FileTree.file.injEq]
      exact ⟨fun h => h.2.symm, fun h => ⟨rfl, h.symm⟩⟩
    | cons name names =>
      rw [look_file_cons]
      exact ⟨fun h => absurd h.1 (List.cons_ne_nil _ _), nofun⟩
  | @dir entries distinct names below ih =>
    rw [mem_walk_dir]
    cases place with
    | nil =>
      constructor
      · rintro ⟨e, -, he⟩
        obtain ⟨names, hnames, -⟩ := mem_walkEntry.1 he
        cases hnames
      · intro h
        rw [look_nil] at h
        cases h
    | cons name place =>
      rw [look_dir_cons, Option.bind_eq_some_iff]
      constructor
      · rintro ⟨e, he, hfile⟩
        obtain ⟨names, hnames, hwalk⟩ := mem_walkEntry.1 hfile
        obtain ⟨rfl, rfl⟩ := List.cons.inj hnames
        exact ⟨e.2, (get?_eq_some_iff distinct).2 he, (ih e he).1 hwalk⟩
      · rintro ⟨child, hchild, hlook⟩
        have hmem := (get?_eq_some_iff distinct).1 hchild
        exact ⟨_, hmem, mem_walkEntry.2 ⟨place, rfl, (ih _ hmem).2 hlook⟩⟩

/-! ### The order of the walk -/

/-- The order in which files are walked: in each directory the files before what is in directories,
and both by name. -/
def Precedes : List Text → List Text → Prop
  | [a], [b] => Text.lt a b
  | [_], _ :: _ :: _ => True
  | a :: a' :: as, b :: b' :: bs => Text.lt a b ∨ a = b ∧ Precedes (a' :: as) (b' :: bs)
  | _, _ => False

theorem Precedes.asymm {as bs : List Text} (h : Precedes as bs) : ¬Precedes bs as := by
  induction as generalizing bs with
  | nil => cases h
  | cons a as ih =>
    have hlt : ∀ {s t : Text}, Text.lt s t → ¬Text.lt t s := fun h h' =>
      Bool.noConfusion ((Text.lt_asymm h).symm.trans h')
    match as, bs, h with
    | [], [b], h => exact hlt h
    | [], _ :: _ :: _, _ => exact id
    | a' :: as, b :: b' :: bs, h =>
      rintro (h' | ⟨rfl, h'⟩)
      · rcases h with h | ⟨rfl, -⟩
        · exact hlt h h'
        · exact hlt h' h'
      · rcases h with h | ⟨-, h⟩
        · exact hlt h h
        · exact ih h h'

theorem Precedes.cons {as bs : List Text} (h : Precedes as bs) (name : Text) :
    Precedes (name :: as) (name :: bs) := by
  match as, bs, h with
  | [_], [_], h => exact .inr ⟨rfl, h⟩
  | [_], _ :: _ :: _, h => exact .inr ⟨rfl, h⟩
  | _ :: _ :: _, _ :: _ :: _, h => exact .inr ⟨rfl, h⟩

theorem precedes_of_lt {a b : Text} (h : Text.lt a b) {as bs : List Text} (ha : as ≠ [])
    (hb : bs ≠ []) : Precedes (a :: as) (b :: bs) := by
  obtain ⟨a', as, rfl⟩ := List.exists_cons_of_ne_nil ha
  obtain ⟨b', bs, rfl⟩ := List.exists_cons_of_ne_nil hb
  exact .inl h

theorem precedes_of_ne_nil (a b : Text) {bs : List Text} (hb : bs ≠ []) :
    Precedes [a] (b :: bs) := by
  obtain ⟨b', bs, rfl⟩ := List.exists_cons_of_ne_nil hb
  exact trivial

theorem pairwise_byName {α : Type} {entries : List (Text × α)} (h : (entries.map Prod.fst).Nodup) :
    (byName entries).Pairwise fun e e' => Text.lt e.1 e'.1 := by
  have hsorted : (byName entries).Pairwise fun e e' => (!Text.lt e'.1 e.1) = true := by
    refine List.pairwise_mergeSort (fun a b c hab hbc => ?_) (fun a b => ?_) entries
    · rw [Bool.not_eq_true'] at hab hbc ⊢
      rw [Bool.eq_false_iff] at hab hbc ⊢
      intro hca
      rcases Text.lt_connected a.1 b.1 with heq | hlt | hlt
      · exact hbc (heq ▸ hca)
      · exact hbc (Text.lt_trans hca hlt)
      · exact hab hlt
    · cases hba : Text.lt b.1 a.1 with
      | false => rfl
      | true => rw [Text.lt_asymm hba]; rfl
  have hdistinct : (byName entries).Pairwise fun e e' => e.1 ≠ e'.1 := by
    rw [← List.pairwise_map]
    exact ((List.mergeSort_perm entries _).map Prod.fst).nodup_iff.2 h
  refine (hsorted.and hdistinct).imp fun {e e'} he => ?_
  rcases Text.lt_connected e.1 e'.1 with heq | hlt | hlt
  · exact absurd heq he.2
  · exact hlt
  · have := he.1
    rw [hlt] at this
    cases this

/-- The walk follows the order of the places. -/
theorem pairwise_walk (h : tree.Proper) : (tree.walk.map Prod.fst).Pairwise Precedes := by
  rw [List.pairwise_map]
  induction h with
  | file b =>
    rw [walk]
    exact List.pairwise_singleton _ _
  | @dir entries distinct names below ih =>
    have hsub : ∀ p : Text × FileTree → Bool, ((entries.filter p).map Prod.fst).Nodup := fun p =>
      (List.filter_sublist.map Prod.fst).nodup distinct
    -- what is below a directory has a name after that of the directory
    have hbelow : ∀ e ∈ byName (entries.filter (!·.2.isFile)), ∀ file ∈ walkEntry e,
        ∃ place ≠ [], file.1 = e.1 :: place := by
      rintro ⟨name, child⟩ he ⟨place, b⟩ hfile
      obtain ⟨rest, hrest, hwalk⟩ := mem_walkEntry.1 hfile
      have hkind := (List.mem_filter.1 (mem_byName.1 he)).2
      cases child with
      | file b => cases hkind
      | dir es => exact ⟨rest, place_ne_nil_of_mem_walk hwalk, hrest⟩
    have hfile : ∀ e ∈ byName (entries.filter (·.2.isFile)), ∀ file ∈ walkEntry e,
        file.1 = [e.1] := by
      rintro ⟨name, child⟩ he ⟨place, b⟩ hfile
      obtain ⟨rest, hrest, hwalk⟩ := mem_walkEntry.1 hfile
      have hkind := (List.mem_filter.1 (mem_byName.1 he)).2
      cases child with
      | dir es => cases hkind
      | file b =>
        rw [walk, List.mem_singleton] at hwalk
        rw [hrest, (Prod.mk.inj hwalk).1]
    have hinside : ∀ p : Text × FileTree → Bool, ∀ e ∈ byName (entries.filter p),
        (walkEntry e).Pairwise fun f f' => Precedes f.1 f'.1 := by
      intro p e he
      rw [walkEntry, List.pairwise_map]
      exact (ih e (List.mem_filter.1 (mem_byName.1 he)).1).imp fun hp => hp.cons e.1
    rw [walk_dir, List.pairwise_append, List.pairwise_flatMap, List.pairwise_flatMap]
    refine ⟨⟨hinside _, (pairwise_byName (hsub _)).imp_of_mem fun he he' hlt f hf f' hf' => ?_⟩,
      ⟨hinside _, (pairwise_byName (hsub _)).imp_of_mem fun he he' hlt f hf f' hf' => ?_⟩,
      fun f hf f' hf' => ?_⟩
    · rw [hfile _ he f hf, hfile _ he' f' hf']
      exact hlt
    · obtain ⟨place, hne, hplace⟩ := hbelow _ he f hf
      obtain ⟨place', hne', hplace'⟩ := hbelow _ he' f' hf'
      rw [hplace, hplace']
      exact precedes_of_lt hlt hne hne'
    · obtain ⟨e, he, hf⟩ := List.mem_flatMap.1 hf
      obtain ⟨e', he', hf'⟩ := List.mem_flatMap.1 hf'
      obtain ⟨place, hne, hplace⟩ := hbelow _ he' f' hf'
      rw [hfile _ he f hf, hplace]
      exact precedes_of_ne_nil e.1 e'.1 hne

/-- No place is walked twice. -/
theorem nodup_walk (h : tree.Proper) : (tree.walk.map Prod.fst).Nodup := by
  refine (pairwise_walk h).imp fun {place place'} hprecedes => ?_
  rintro rfl
  exact hprecedes.asymm hprecedes

/-- **Trees with the same files are walked alike**, as far as the files at some places go. -/
theorem filter_walk_congr {tree' : FileTree} (h : tree.Proper) (h' : tree'.Proper)
    (p : List Text → Bool) (hsame : ∀ place bytes, p place →
      (tree.look place = some (.file bytes) ↔ tree'.look place = some (.file bytes))) :
    tree.walk.filter (p ·.1) = tree'.walk.filter (p ·.1) := by
  have hsorted : ∀ {t : FileTree}, t.Proper →
      (t.walk.filter (p ·.1)).Pairwise fun f f' => Precedes f.1 f'.1 := fun ht =>
    (List.pairwise_map.1 (pairwise_walk ht)).sublist List.filter_sublist
  have hdistinct : ∀ {t : FileTree}, t.Proper → (t.walk.filter (p ·.1)).Nodup := fun ht =>
    ((List.pairwise_map.1 (nodup_walk ht)).imp fun hne heq => hne (congrArg Prod.fst heq)).filter _
  refine List.Perm.eq_of_pairwise (fun f f' _ _ hp hp' => absurd hp' hp.asymm) (hsorted h)
    (hsorted h') ((List.perm_ext_iff_of_nodup (hdistinct h) (hdistinct h')).2 ?_)
  rintro ⟨place, bytes⟩
  rw [List.mem_filter, List.mem_filter, mem_walk_iff h, mem_walk_iff h']
  exact ⟨fun ⟨hl, hp⟩ => ⟨(hsame place bytes hp).1 hl, hp⟩,
    fun ⟨hl, hp⟩ => ⟨(hsame place bytes hp).2 hl, hp⟩⟩

end FileTree

end AvroJsonSchema
