import AvroJsonSchema.Proofs.Keeping

/-!
# Which schema files a conversion visits

A conversion lists a directory when it comes to it, and documents may go to the same directories.
None of them is a schema file, so no conversion changes one, whether it succeeds or not, and the
files that it visits are those that were there before, in their order.

* **`Files.KeepsSchemas`**, **`Files.convertDirectory_keeps`**: a conversion leaves the schema files
  alone.
* **`Files.visitBelow_eq`**, **`Files.visitSchemas_eq`**: a visit along the directories as they are is
  a visit of the schema files that were there before.
-/

namespace AvroJsonSchema

open AvroJsonSchema.Path FileSystem

namespace Files

/-! ### One run after the other -/

theorem andThen_zero (result : Except Fault Nat × FileSystem) :
    andThen result (fun system => (.ok 0, system)) = result := by
  obtain ⟨outcome, system⟩ := result
  cases outcome <;> rfl

theorem andThen_assoc (first : Except Fault Nat × FileSystem)
    (second third : FileSystem → Except Fault Nat × FileSystem) :
    andThen (andThen first second) third =
      andThen first fun system => andThen (second system) third := by
  obtain ⟨outcome, system⟩ := first
  cases outcome with
  | error fault => rfl
  | ok n =>
    simp only [andThen]
    obtain ⟨outcome, system⟩ := second system
    cases outcome with
    | error fault => rfl
    | ok m =>
      simp only [Except.map]
      obtain ⟨outcome, system⟩ := third system
      cases outcome with
      | error fault => rfl
      | ok k => simp only [Nat.add_assoc]

/-- Only where the first run ends counts for the second. -/
theorem andThen_congr {first : Except Fault Nat × FileSystem}
    {next next' : FileSystem → Except Fault Nat × FileSystem}
    (h : ∀ k s, first = (.ok k, s) → next s = next' s) :
    andThen first next = andThen first next' := by
  obtain ⟨outcome, s⟩ := first
  cases outcome with
  | error fault => rfl
  | ok k => simp only [andThen, h k s rfl]

section InTurn

variable {α β : Type} {run : α → FileSystem → Except Fault Nat × FileSystem}
  {visit : β → FileSystem → Except Fault Nat × FileSystem}

theorem inTurn_append (first more : List α) (system : FileSystem) :
    inTurn run (first ++ more) system = andThen (inTurn run first system) (inTurn run more) := by
  induction first generalizing system with
  | nil =>
    show inTurn run more system = andThen (.ok 0, system) _
    rw [andThen]
    obtain ⟨outcome, after⟩ := inTurn run more system
    cases outcome with
    | error fault => rfl
    | ok n => simp only [Except.map, Nat.zero_add]
  | cons a first ih =>
    show andThen (run a system) (inTurn run (first ++ more)) = andThen (andThen _ _) _
    rw [andThen_assoc]
    exact congrArg (andThen _) (funext ih)

theorem inTurn_singleton (a : α) (system : FileSystem) : inTurn run [a] system = run a system :=
  andThen_zero _

/-- What each run keeps, the runs in turn keep, whether they end with a fault or not. -/
theorem inTurn_keeps {J : FileSystem → Prop} {l : List α} {system : FileSystem}
    (h : ∀ a ∈ l, ∀ s, J s → J (run a s).2) (hJ : J system) : J (inTurn run l system).2 := by
  induction l generalizing system with
  | nil => exact hJ
  | cons a l ih =>
    have hstep := h a List.mem_cons_self system hJ
    rw [inTurn]
    cases hrun : run a system with
    | mk outcome s =>
      rw [hrun] at hstep
      cases outcome with
      | error fault => exact hstep
      | ok k => exact ih (fun a' ha' => h a' (List.mem_cons_of_mem _ ha')) hstep

/-- Runs that are runs in turn themselves. -/
theorem inTurn_flatMap {J : FileSystem → Prop} {f : α → List β} {l : List α} {system : FileSystem}
    (h : ∀ a ∈ l, ∀ s, J s → run a s = inTurn visit (f a) s)
    (hvisit : ∀ b s, J s → J (visit b s).2) (hJ : J system) :
    inTurn run l system = inTurn visit (l.flatMap f) system := by
  induction l generalizing system with
  | nil => rfl
  | cons a l ih =>
    rw [List.flatMap_cons, inTurn_append, inTurn, h a List.mem_cons_self system hJ]
    refine andThen_congr fun k s hfirst =>
      ih (fun a' ha' => h a' (List.mem_cons_of_mem _ ha')) ?_
    have hkept := inTurn_keeps (l := f a) (fun b _ => hvisit b) hJ
    rwa [hfirst] at hkept

end InTurn

/-! ### Schema files of a directory -/

theorem isSchemaPlace_append (names : List Text) {more : List Text} (h : more ≠ []) :
    isSchemaPlace (names ++ more) = isSchemaPlace more := by
  rw [isSchemaPlace, isSchemaPlace, List.getLast?_append, List.getLast?_eq_some_getLast h,
    Option.some_or]

section Agenda

open Table FileTree

variable {entries : List (Text × FileTree)} {e : Text × FileTree}

theorem schemas_of_file (he : e.2.isFile) :
    ((walkEntry e).filter (isSchemaPlace ·.1)).map Prod.fst =
      if isSchemaName e.1 then [[e.1]] else [] := by
  obtain ⟨name, tree⟩ := e
  cases tree with
  | dir es => cases he
  | file bytes =>
    rw [walkEntry, FileTree.walk]
    show ([([name], bytes)].filter (isSchemaPlace ·.1)).map Prod.fst = _
    have hplace : isSchemaPlace [name] = isSchemaName name := rfl
    rw [List.filter_cons, List.filter_nil]
    simp only [hplace]
    split <;> rfl

theorem schemas_of_directory (he : e.2.isFile = false) :
    ((walkEntry e).filter (isSchemaPlace ·.1)).map Prod.fst =
      (schemaFiles e.2).map fun file => e.1 :: file.1 := by
  obtain ⟨name, tree⟩ := e
  cases tree with
  | file bytes => cases he
  | dir es =>
    rw [walkEntry, List.filter_map, List.map_map, schemaFiles]
    have hsame : (dir es).walk.filter ((isSchemaPlace ·.1) ∘ fun file => (name :: file.1, file.2)) =
        (dir es).walk.filter (isSchemaPlace ·.1) := by
      refine List.filter_congr fun file hfile => ?_
      exact isSchemaPlace_append [name] (place_ne_nil_of_mem_walk hfile)
    rw [hsame]
    rfl

/-- The schema files at one item of an agenda. -/
def visited (entries : List (Text × FileTree)) (item : Text × Bool) : List (List Text) :=
  if item.2 then [[item.1]]
  else ((get? item.1 entries).elim [] schemaFiles).map fun file => item.1 :: file.1

/-- The items of an agenda have the schema files of the directory, in their order. -/
theorem map_schemaFiles_dir (h : (dir entries).Proper) :
    (schemaFiles (.dir entries)).map Prod.fst = (agenda (.dir entries)).flatMap (visited entries) := by
  cases h with
  | dir distinct names below =>
  rw [schemaFiles, walk_dir, agenda, List.filter_append, List.map_append, List.flatMap_append,
    List.filter_flatMap, List.filter_flatMap, List.map_flatMap, List.map_flatMap, List.flatMap_map,
    List.flatMap_map]
  congr 1
  · have hfiles : ∀ l : List (Text × FileTree), (∀ e ∈ l, e.2.isFile) →
        l.flatMap (fun e => ((walkEntry e).filter (isSchemaPlace ·.1)).map Prod.fst) =
          (l.filter (isSchemaName ·.1)).flatMap fun e => visited entries (e.1, true) := by
      intro l hl
      induction l with
      | nil => rfl
      | cons e l ih =>
        rw [List.flatMap_cons, schemas_of_file (hl e List.mem_cons_self),
          ih fun e' he' => hl e' (List.mem_cons_of_mem _ he'), List.filter_cons]
        split <;> rfl
    exact hfiles _ fun e he => (List.mem_filter.1 (mem_byName.1 he)).2
  · rw [List.flatMap_def, List.flatMap_def]
    refine congrArg List.flatten (List.map_congr_left fun e he => ?_)
    obtain ⟨hmem, hkind⟩ := List.mem_filter.1 (mem_byName.1 he)
    rw [schemas_of_directory (by simpa using hkind), visited]
    have hget : get? e.1 entries = some e.2 := (get?_eq_some_iff distinct).2 hmem
    rw [hget]
    rfl

end Agenda

theorem mem_schemaFiles_iff {tree : FileTree} (h : tree.Proper) {file : List Text × List UInt8} :
    file ∈ schemaFiles tree ↔ tree.look file.1 = some (.file file.2) ∧ isSchemaPlace file.1 := by
  rw [schemaFiles, List.mem_filter, FileTree.mem_walk_iff h]

theorem ne_nil_of_mem_schemaFiles {entries : List (Text × FileTree)}
    {file : List Text × List UInt8} (h : file ∈ schemaFiles (.dir entries)) : file.1 ≠ [] :=
  FileTree.place_ne_nil_of_mem_walk (List.mem_filter.1 h).1

theorem nodup_schemaFiles {tree : FileTree} (h : tree.Proper) :
    ((schemaFiles tree).map Prod.fst).Nodup :=
  (FileTree.nodup_walk h).sublist (List.filter_sublist.map Prod.fst)

/-- A directory of an agenda stands below the directory of the agenda. -/
theorem exists_of_mem_agenda {root : FileTree} {place : List Text}
    {entries : List (Text × FileTree)} {name : Text} (hproper : (FileTree.dir entries).Proper)
    (hfind : root.find? place = some (.dir entries)) (h : (name, false) ∈ agenda (.dir entries)) :
    ∃ inside, root.find? (place ++ [name]) = some (.dir inside) ∧
      visited entries (name, false) =
        (schemaFiles (.dir inside)).map fun file => name :: file.1 := by
  rcases List.mem_append.1 h with h | h
  · obtain ⟨e, -, he⟩ := List.mem_map.1 h
    cases he
  · obtain ⟨⟨name', tree⟩, he, heq⟩ := List.mem_map.1 h
    obtain ⟨hmem, hkind⟩ := List.mem_filter.1 (FileTree.mem_byName.1 he)
    obtain ⟨rfl, -⟩ := Prod.mk.inj heq
    cases tree with
    | file bytes => cases hkind
    | dir inside =>
      have hchild : Table.get? name' entries = some (.dir inside) := by
        cases hproper with
        | dir distinct _ _ => exact (FileTree.get?_eq_some_iff distinct).2 hmem
      refine ⟨inside, ?_, ?_⟩
      · rw [FileTree.find?_append, hfind, Option.bind_some, FileTree.find?_cons]
        show (Table.get? name' entries).bind _ = _
        rw [hchild]
        exact FileTree.find?_nil _
      · show ((Table.get? name' entries).elim [] schemaFiles).map _ = _
        rw [hchild]
        rfl

/-! ### Documents and schema files -/

theorem isSchemaName_iff {name : Text} : isSchemaName name ↔ schemaEnding <:+ name :=
  Text.isSome_before?_iff

theorem isSchemaName_document (stem : Text) : isSchemaName (stem ++ documentEnding) = false := by
  rw [Bool.eq_false_iff]
  intro hschema
  obtain ⟨rest, hrest⟩ := isSchemaName_iff.1 hschema
  have hsame : schemaEnding = documentEnding := (List.append_inj' hrest (by decide)).2
  exact absurd hsame (by decide)

theorem suffix_documentOf (output : Text) (names : List Text) :
    documentEnding <:+ documentOf output names :=
  (List.suffix_append _ _).trans (suffix_join output)

/-- **No document goes to the place of a schema file**, whatever the output is. -/
theorem isSchemaPlace_documentOf (system : FileSystem) (output : Text) (names : List Text) :
    isSchemaPlace (system.placeOf (documentOf output names)) = false := by
  obtain ⟨directory, hdirectory⟩ := suffix_documentOf output names
  obtain ⟨front, last, hcomponents⟩ :=
    components_append_of_no_slash directory (t := documentEnding) (by decide) (by decide)
  have hlength : 5 ≤ (last ++ documentEnding).length := by
    rw [List.length_append]
    exact Nat.le_add_left _ _
  have hhere : last ++ documentEnding ≠ here := fun heq => by
    rw [heq] at hlength
    exact absurd hlength (by decide)
  have hup : last ++ documentEnding ≠ up := fun heq => by
    rw [heq] at hlength
    exact absurd hlength (by decide)
  rw [← hdirectory, placeOf, hcomponents, lead_append]
  show isSchemaPlace (follow _ (last ++ documentEnding)) = false
  rw [follow, if_neg hhere, if_neg hup, isSchemaPlace_append _ (List.cons_ne_nil _ _),
    nameOf_append (by decide)]
  exact isSchemaName_document _

/-- The schema files are as before, and every directory is still there. -/
abbrev KeepsSchemas (before after : FileSystem) : Prop :=
  Keeps (fun place => isSchemaPlace place) before after

/-- **No schema file is changed when one is converted**, whether it can be converted or not. -/
theorem keeps_convertSchema {system : FileSystem} (hsound : system.Sound) (options : Options)
    (source output : Text) (names : List Text) :
    KeepsSchemas system (convertSchema options source output names system).2 := by
  unfold convertSchema
  split
  · exact .refl hsound
  · exact keeps_writeBelow hsound (by rw [isSchemaPlace_documentOf]; exact nofun) _ _

/-- What every visit leaves alone, the visit of a directory does. -/
theorem keeps_visitBelow {visit : List Text → FileSystem → Except Fault Unit × FileSystem}
    (hkeeps : ∀ names s, s.Sound → KeepsSchemas s (visit names s).2) (source : Text) (depth : Nat)
    (names : List Text) {system : FileSystem} (hsound : system.Sound) :
    KeepsSchemas system (visitBelow visit source depth names system).2 := by
  induction depth generalizing names system with
  | zero => exact .refl hsound
  | succ depth ih =>
    rw [visitBelow]
    split
    · exact .refl hsound
    · refine inTurn_keeps (J := KeepsSchemas system) (fun item _ s hs => ?_) (.refl hsound)
      split
      · exact hs.trans (hkeeps _ s hs.sound)
      · exact hs.trans (ih _ hs.sound)

/-- **No schema file is changed when a directory is converted**, wherever the documents go and
whatever becomes of the conversion. -/
theorem convertDirectory_keeps {system : FileSystem} (hsound : system.Sound) (source output : Text)
    (preset : Json) (draft : Option Draft) :
    KeepsSchemas system (convertDirectory system source output preset draft).2 := by
  unfold convertDirectory
  split
  · exact .refl hsound
  · split
    · exact .refl hsound
    · rw [visitSchemas]
      exact keeps_visitBelow (fun names s hs => keeps_convertSchema hs _ source output names) source
        (pathLimit + 1) [] hsound

/-! ### Visiting -/

variable {system after : FileSystem} {source : Text} {names : List Text}

/-- The schema files of a directory are as before. -/
theorem schemaFiles_eq_of_keeps (h : KeepsSchemas system after) (hsound : system.Sound)
    {place : List Text} {entries entries' : List (Text × FileTree)}
    (hfind : system.root.find? place = some (.dir entries))
    (hfind' : after.root.find? place = some (.dir entries')) :
    schemaFiles (.dir entries') = schemaFiles (.dir entries) := by
  refine FileTree.filter_walk_congr (h.sound.proper.find? hfind').1 (hsound.proper.find? hfind).1
    isSchemaPlace fun names bytes hnames => ?_
  have hne : names ≠ [] := by
    rintro rfl
    cases hnames
  have hsame := h.files (place ++ names) bytes
    ((isSchemaPlace_append place hne).trans hnames)
  rwa [look, look, FileTree.look_append, FileTree.look_append, hfind, hfind'] at hsame

theorem placeOf_below (system : FileSystem) (hne : source ≠ []) (h : ∀ name ∈ names, IsName name) :
    system.placeOf (below source names) = system.placeOf source ++ names := by
  rw [placeOf, components_below h, lead_append, lead_of_isName h, placeOf,
    start_of_prefix (prefix_below h source) hne]

/-- A place that there is below a source is reached by its path from there. -/
theorem reaches_below (hsource : system.Reaches source) (h : ∀ name ∈ names, IsName name)
    (hlook : system.look (system.placeOf source ++ names) ≠ none)
    (hnameable : IsNameable (below source names)) : system.Reaches (below source names) := by
  refine ⟨below_ne_nil h hsource.ne_nil, hnameable, fun passed hmem => ?_⟩
  rw [FileSystem.places, components_below h, ← start_of_prefix (prefix_below h source) hsource.ne_nil] at hmem
  rcases mem_dropLast_places_append hmem with hmem | hmem
  · exact hsource.before passed hmem
  · obtain ⟨front, back, hback, rfl, rfl⟩ := exists_of_mem_dropLast_places h hmem
    rw [← List.append_assoc] at hlook
    exact FileTree.look_of_below hback hlook

/-- A directory that cannot be listed has no schema files that could be read. -/
theorem schemaFiles_eq_nil (hsound : system.Sound) (hsource : system.Reaches source)
    {entries : List (Text × FileTree)}
    (hfind : system.root.find? (system.placeOf source ++ names) = some (.dir entries))
    (hnameable : ∀ file ∈ schemaFiles (.dir entries), IsNameable (below source (names ++ file.1)))
    (hlist : system.directory? (below source names) = none) : schemaFiles (.dir entries) = [] := by
  obtain ⟨hproper, hplaceNames⟩ := hsound.proper.find? hfind
  have hnames : ∀ name ∈ names, IsName name := fun name hmem =>
    hplaceNames name (List.mem_append_right _ hmem)
  refine List.eq_nil_iff_forall_not_mem.2 fun file hfile => ?_
  have hmore : ∀ name ∈ file.1, IsName name := hproper.names_of_look
    (ne_none_of_eq ((mem_schemaFiles_iff hproper).1 hfile).1)
  have hlook : system.look (system.placeOf source ++ names) ≠ none := by
    rw [look, FileTree.look, hfind]
    exact Option.some_ne_none _
  have hreaches := reaches_below hsource hnames hlook ((hnameable file hfile).of_below hmore)
  have hplace := placeOf_below system hsource.ne_nil hnames
  have hsome := directory?_eq_some_iff.2 ⟨hreaches, entries, rfl, hplace ▸ hfind⟩
  rw [hlist] at hsome
  cases hsome

/-- **A visit along the directories as they are** is a visit of the schema files that were there
before. -/
theorem visitBelow_eq {visit : List Text → FileSystem → Except Fault Unit × FileSystem}
    (hkeeps : ∀ names s, s.Sound → KeepsSchemas s (visit names s).2) (depth : Nat)
    (hsound : system.Sound) (hsource : system.Reaches source)
    {entries : List (Text × FileTree)}
    (hfind : system.root.find? (system.placeOf source ++ names) = some (.dir entries))
    (hfiles : ∀ file ∈ schemaFiles (.dir entries),
      IsNameable (below source (names ++ file.1)) ∧ file.1.length ≤ depth) :
    visitBelow visit source depth names system =
      inTurn (fun names s => counted (visit names s))
        (((schemaFiles (.dir entries)).map Prod.fst).map (names ++ ·)) system := by
  induction depth generalizing system names entries with
  | zero =>
    have hnone : schemaFiles (.dir entries) = [] := List.eq_nil_iff_forall_not_mem.2 fun file hfile =>
      ne_nil_of_mem_schemaFiles hfile
        (List.length_eq_zero_iff.1 (Nat.le_zero.1 (hfiles file hfile).2))
    rw [hnone]
    rfl
  | succ depth ih =>
    obtain ⟨hproper, hplaceNames⟩ := hsound.proper.find? hfind
    cases hlist : system.directory? (below source names) with
    | none =>
      rw [schemaFiles_eq_nil hsound hsource hfind (fun file hfile => (hfiles file hfile).1) hlist,
        visitBelow, hlist]
      rfl
    | some directory =>
      obtain ⟨-, entries', rfl, hfind'⟩ := directory?_eq_some_iff.1 hlist
      rw [placeOf_below system hsource.ne_nil fun name hmem =>
        hplaceNames name (List.mem_append_right _ hmem), hfind] at hfind'
      obtain rfl : entries = entries' := FileTree.dir.inj (Option.some.inj hfind')
      rw [visitBelow, hlist, map_schemaFiles_dir hproper, List.map_flatMap]
      -- the items are visited one after the other, and none of the visits changes a schema file
      refine inTurn_flatMap (J := KeepsSchemas system) (fun item hitem s hs => ?_)
        (fun names' s hs => hs.trans (hkeeps names' s hs.sound)) (.refl hsound)
      obtain ⟨name, kind⟩ := item
      cases kind with
      | true => exact (inTurn_singleton _ _).symm
      | false =>
        obtain ⟨inside, hinside, hvisited⟩ := exists_of_mem_agenda hproper hfind hitem
        rw [List.append_assoc] at hinside
        -- the directory is still there, with the same schema files
        obtain ⟨inside', hinside'⟩ := FileTree.look_eq_directory_iff.1
          (hs.directories _ (FileTree.look_eq_directory_iff.2 ⟨inside, hinside⟩))
        have hsame := schemaFiles_eq_of_keeps hs hsound hinside hinside'
        have hlists : ((schemaFiles (.dir inside)).map Prod.fst).map (names ++ [name] ++ ·) =
            (visited entries (name, false)).map (names ++ ·) := by
          rw [hvisited, List.map_map, List.map_map]
          exact List.map_congr_left fun file _ => List.append_assoc names [name] file.1
        rw [← (placeOf_congr hs.directory_eq source).1] at hinside'
        show visitBelow visit source depth (names ++ [name]) s = _
        rw [ih hs.sound (hs.reaches hsource) hinside' fun file hfile => ?_, hsame, hlists]
        rw [hsame] at hfile
        obtain ⟨file', hfile', heq⟩ : ∃ file' ∈ schemaFiles (.dir entries), file'.1 = name :: file.1 := by
          rw [← List.mem_map (f := Prod.fst), map_schemaFiles_dir hproper]
          exact List.mem_flatMap.2 ⟨_, hitem, hvisited ▸ List.mem_map_of_mem hfile⟩
        obtain ⟨hnameable, hlength⟩ := hfiles file' hfile'
        rw [heq] at hnameable hlength
        refine ⟨by rwa [List.append_assoc, List.singleton_append], ?_⟩
        rw [List.length_cons] at hlength
        omega

/-- **A visit of the schema files below a source** meets those that were there before it, in their
order. -/
theorem visitSchemas_eq {visit : List Text → FileSystem → Except Fault Unit × FileSystem}
    (hkeeps : ∀ names s, s.Sound → KeepsSchemas s (visit names s).2) (hsound : system.Sound)
    {directory : FileTree} (hsource : system.directory? source = some directory)
    (hfiles : ∀ file ∈ schemaFiles directory, IsNameable (below source file.1)) :
    visitSchemas visit source system =
      inTurn (fun names s => counted (visit names s)) ((schemaFiles directory).map Prod.fst)
        system := by
  obtain ⟨hreaches, entries, rfl, hfind⟩ := directory?_eq_some_iff.1 hsource
  rw [← List.append_nil (system.placeOf source)] at hfind
  have hproper := (hsound.proper.find? hfind).1
  refine (visitBelow_eq hkeeps _ hsound hreaches hfind fun file hfile =>
    ⟨hfiles file hfile, ?_⟩).trans ?_
  · have hnames : ∀ name ∈ file.1, IsName name := hproper.names_of_look
      (ne_none_of_eq ((mem_schemaFiles_iff hproper).1 hfile).1)
    have hlength := length_le_octetCount_below hnames source
    have hle := (hfiles file hfile).path_le
    omega
  · rw [show (([] : List Text) ++ ·) = id from funext List.nil_append, List.map_id]

end Files

end AvroJsonSchema
