import AvroJsonSchema.Files.Conversion
import AvroJsonSchema.Proofs.FileTrees
import AvroJsonSchema.Proofs.Paths

/-!
# What operations on files do

A path leads somewhere if everything that it passes through is a directory.  Making a directory with
those above it puts a directory at every place of its path where nothing stood, and writing a file
puts the file where its path leads; everything else stays as it was.

* **`FileSystem.Reaches`**, **`FileSystem.directory?_eq_some_iff`**: where a path leads.
* **`FileSystem.makeDirectories_spec`**: a directory is made with those above it.
* **`FileSystem.Reaches.writeFile`**, **`Files.writeBelow_spec`**: a file is written.
* **`Files.writeBelow_detour`**: a file whose path leads through its own place is not.
-/

namespace AvroJsonSchema

open AvroJsonSchema.Path

namespace FileSystem

variable {system after : FileSystem} {path : Text} {place : List Text}

/-- What stands at a place. -/
def look (system : FileSystem) (place : List Text) : Option FileTree.Occupant :=
  system.root.look place

/-- Where a path leads, whether anything stands there or not. -/
def placeOf (system : FileSystem) (path : Text) : List Text :=
  lead (system.start path) (components path)

/-- A system whose tree is proper and whose relative paths start from a directory. -/
structure Sound (system : FileSystem) : Prop where
  proper : system.root.Proper
  here : system.look system.directory = some .directory

theorem ne_none_of_eq {α : Type} {x : Option α} {a : α} (h : x = some a) : x ≠ none :=
  h ▸ Option.some_ne_none a

/-- Relative and absolute paths start from a directory. -/
theorem Sound.start (h : system.Sound) (path : Text) :
    system.look (system.start path) = some .directory := by
  unfold FileSystem.start
  split
  · by_cases hdirectory : system.directory = []
    · exact hdirectory ▸ h.here
    · exact FileTree.look_of_below hdirectory (fun hnone => by
        have := h.here
        rw [look, ← List.nil_append system.directory, hnone] at this
        cases this)
  · exact h.here

theorem start_of_prefix {directory : Text} (h : directory <+: path) (hne : directory ≠ []) :
    system.start directory = system.start path := by
  rw [start, start, isAbsolute_of_prefix h hne]

/-! ### Following a path -/

/-- Two steps of which the second one depends on the first succeed together. -/
theorem bind_eq_ok_iff {ε α β : Type} {x : Except ε α} {f : α → Except ε β} {b : β} :
    (x >>= f) = .ok b ↔ ∃ a, x = .ok a ∧ f a = .ok b := by
  constructor
  · intro h
    cases x with
    | error e => cases h
    | ok a => exact ⟨a, rfl, h⟩
  · rintro ⟨a, rfl, h⟩
    exact h

theorem demandDirectory_eq_ok_iff {r : List Text} :
    system.demandDirectory place = .ok r ↔ system.look place = some .directory ∧ r = place := by
  rw [look, FileTree.look_eq_directory_iff, demandDirectory]
  cases hfind : system.root.find? place with
  | none => simp
  | some tree =>
    cases tree with
    | file bytes => simp
    | dir entries => simp [eq_comm]

theorem step_eq_ok_iff {component : Text} {r : List Text} :
    system.step place component = .ok r ↔ system.look place = some .directory ∧
      octetCount component ≤ componentLimit ∧ r = follow place component := by
  unfold step
  rw [bind_eq_ok_iff]
  constructor
  · rintro ⟨names, hnames, h⟩
    obtain ⟨hlook, rfl⟩ := demandDirectory_eq_ok_iff.1 hnames
    split at h
    · cases h
    · rename_i hshort
      exact ⟨hlook, Nat.not_lt.1 hshort, (Except.ok.inj h).symm⟩
  · rintro ⟨hlook, hle, rfl⟩
    refine ⟨place, demandDirectory_eq_ok_iff.2 ⟨hlook, rfl⟩, ?_⟩
    rw [if_neg (Nat.not_lt.2 hle)]
    rfl

/-- Components are followed as far as there are directories. -/
theorem steps_eq_ok_iff {components : List Text} {r : List Text} :
    components.foldlM system.step place = .ok r ↔
      (∀ component ∈ components, octetCount component ≤ componentLimit) ∧
      (∀ passed ∈ (Path.places place components).dropLast, system.look passed = some .directory) ∧
      r = lead place components := by
  induction components generalizing place with
  | nil =>
    constructor
    · intro h
      exact ⟨by simp, fun _ h => absurd h List.not_mem_nil, (Except.ok.inj h).symm⟩
    · rintro ⟨-, -, rfl⟩
      rfl
  | cons component components ih =>
    rw [List.foldlM_cons, Path.places, List.dropLast_cons_of_ne_nil (places_ne_nil _ _),
      List.forall_mem_cons, List.forall_mem_cons, bind_eq_ok_iff]
    constructor
    · rintro ⟨next, hstep, h⟩
      obtain ⟨hlook, hle, rfl⟩ := step_eq_ok_iff.1 hstep
      obtain ⟨hles, hlooks, hr⟩ := ih.1 h
      exact ⟨⟨hle, hles⟩, ⟨hlook, hlooks⟩, hr⟩
    · rintro ⟨⟨hle, hles⟩, ⟨hlook, hlooks⟩, hr⟩
      exact ⟨_, step_eq_ok_iff.2 ⟨hlook, hle, rfl⟩, ih.2 ⟨hles, hlooks, hr⟩⟩

/-- A path that the system takes and that passes through directories only. -/
structure Reaches (system : FileSystem) (path : Text) : Prop where
  ne_nil : path ≠ []
  nameable : IsNameable path
  before : ∀ passed ∈ (system.places path).dropLast, system.look passed = some .directory

theorem Reaches.locate (h : system.Reaches path) :
    system.locate path = .ok (system.placeOf path) := by
  rw [FileSystem.locate, FileSystem.walk, if_neg (by simpa using h.ne_nil),
    if_neg (Nat.not_lt.2 h.nameable.path_le)]
  exact steps_eq_ok_iff.2 ⟨h.nameable.component_le, h.before, rfl⟩

theorem reaches_of_locate {r : List Text} (hcheck : check path = .ok ())
    (h : system.locate path = .ok r) : system.Reaches path ∧ r = system.placeOf path := by
  rw [FileSystem.locate, FileSystem.walk] at h
  split at h
  · cases h
  · rename_i hne
    split at h
    · cases h
    · rename_i hle
      obtain ⟨hles, hlooks, rfl⟩ := steps_eq_ok_iff.1 h
      exact ⟨⟨by simpa using hne, ⟨check_eq_ok_iff.1 hcheck, Nat.not_lt.1 hle, hles⟩, hlooks⟩, rfl⟩

theorem reaches_of_entry {tree : FileTree} (hcheck : check path = .ok ())
    (h : system.entry path = .ok tree) :
    system.Reaches path ∧ system.root.find? (system.placeOf path) = some tree := by
  obtain ⟨place, hlocate, h⟩ := bind_eq_ok_iff.1 h
  obtain ⟨hreaches, rfl⟩ := reaches_of_locate hcheck hlocate
  refine ⟨hreaches, ?_⟩
  split at h
  · cases h
  · split at h
    · cases h
    · rw [← Except.ok.inj h]
      assumption
  · rw [← Except.ok.inj h]
    assumption

theorem Reaches.entry_directory (h : system.Reaches path) {entries : List (Text × FileTree)}
    (hfind : system.root.find? (system.placeOf path) = some (.dir entries)) :
    system.entry path = .ok (.dir entries) := by
  simp only [entry, h.locate, bind, Except.bind, hfind]
  rfl

theorem Reaches.entry_file (h : system.Reaches path) (hends : endsWithSlash path = false)
    {bytes : List UInt8} (hlook : system.look (system.placeOf path) = some (.file bytes)) :
    system.entry path = .ok (.file bytes) := by
  simp only [entry, h.locate, bind, Except.bind, FileTree.look_eq_file_iff.1 hlook, hends,
    Bool.false_eq_true, if_false]
  rfl

/-- **A directory is listed if its path leads to it.** -/
theorem directory?_eq_some_iff {tree : FileTree} : system.directory? path = some tree ↔
    system.Reaches path ∧ ∃ entries, tree = .dir entries ∧
      system.root.find? (system.placeOf path) = some (.dir entries) := by
  unfold directory?
  constructor
  · intro h
    split at h
    · rename_i entries hcheck hentry
      obtain ⟨hreaches, hfind⟩ := reaches_of_entry hcheck hentry
      exact ⟨hreaches, entries, (Option.some.inj h).symm, hfind⟩
    · cases h
  · rintro ⟨hreaches, entries, rfl, hfind⟩
    rw [hreaches.nameable.check, hreaches.entry_directory hfind]

theorem reaches_of_hasEntry (h : system.hasEntry path) :
    system.Reaches path ∧ system.look (system.placeOf path) ≠ none := by
  unfold hasEntry at h
  split at h
  · rename_i tree hcheck hentry
    obtain ⟨hreaches, hfind⟩ := reaches_of_entry hcheck hentry
    refine ⟨hreaches, ?_⟩
    rw [look, FileTree.look, hfind]
    exact Option.some_ne_none _
  · cases h

/-- A file is read if its path leads to it. -/
theorem Reaches.readFile (h : system.Reaches path) (hends : endsWithSlash path = false)
    {bytes : List UInt8} (hlook : system.look (system.placeOf path) = some (.file bytes)) :
    system.readFile path = .ok bytes := by
  unfold FileSystem.readFile
  rw [h.entry_file hends hlook]
  show atPath path (.ok bytes) = _
  rw [atPath, h.nameable.check]
  rfl

/-! ### Putting files and directories -/

theorem look_put {names : List Text} {new : FileTree} (hnew : new.IsLeaf) (hne : names ≠ [])
    (hparent : system.look names.dropLast = some .directory)
    (hfree : system.look names ≠ some .directory) (place : List Text) :
    (system.put names new).look place =
      if place = names then some new.occupant else system.look place :=
  FileTree.look_insert hnew hne hparent hfree place

/-- A path that leads to no directory leads to a name within one. -/
theorem Reaches.last (h : system.Reaches path) (hsound : system.Sound)
    (hfree : system.look (system.placeOf path) ≠ some .directory) :
    ∃ components component, Path.components path = components ++ [component] ∧
      system.placeOf path =
        lead (system.start path) components ++ [nameOf component] ∧ IsName (nameOf component) ∧
      system.look (lead (system.start path) components) = some .directory := by
  have hnonempty : Path.components path ≠ [] := by
    intro hnil
    refine hfree ?_
    rw [placeOf, hnil]
    exact hsound.start path
  obtain ⟨components, component, hcomponents⟩ :
      ∃ components component, Path.components path = components ++ [component] :=
    ⟨_, _, (List.dropLast_concat_getLast hnonempty).symm⟩
  have hparent : system.look (lead (system.start path) components) = some .directory := by
    refine h.before _ ?_
    rw [places, hcomponents, places_concat, List.dropLast_concat]
    exact lead_mem_places _ _
  have hplace : system.placeOf path = follow (lead (system.start path) components) component := by
    rw [placeOf, hcomponents, lead_append]
    rfl
  have hcomponent := mem_components (hcomponents ▸ List.mem_append_right _ List.mem_cons_self :
    component ∈ Path.components path)
  have hhere : component ≠ Path.here := by
    intro heq
    rw [hplace, follow, if_pos heq] at hfree
    exact hfree hparent
  have hup : component ≠ Path.up := by
    intro heq
    rw [hplace, follow, if_neg hhere, if_pos heq] at hfree
    refine hfree ?_
    by_cases hroot : lead (system.start path) components = []
    · rw [hroot] at hparent ⊢
      exact hparent
    · refine FileTree.look_of_below
        (List.cons_ne_nil ((lead (system.start path) components).getLast hroot) []) ?_
      rw [List.dropLast_concat_getLast]
      exact ne_none_of_eq hparent
  refine ⟨components, component, hcomponents, ?_,
    isName_nameOf hcomponent.1 hcomponent.2 hhere hup, hparent⟩
  rw [hplace, follow, if_neg hhere, if_neg hup]

/-- What is put where a path leads is seen there, and the system stays sound. -/
theorem Reaches.put (h : system.Reaches path) (hsound : system.Sound) {new : FileTree}
    (hnew : new.IsLeaf) (hproper : new.Proper)
    (hfree : system.look (system.placeOf path) ≠ some .directory) :
    (system.put (system.placeOf path) new).Sound ∧
      ∀ place, (system.put (system.placeOf path) new).look place =
        if place = system.placeOf path then some new.occupant else system.look place := by
  obtain ⟨components, component, -, hplace, hname, hparent⟩ := h.last hsound hfree
  have hdrop : (system.placeOf path).dropLast = lead (system.start path) components := by
    rw [hplace, List.dropLast_concat]
  have hlook := look_put hnew (by rw [hplace]; exact List.concat_ne_nil _ _) (hdrop ▸ hparent) hfree
  refine ⟨⟨hsound.proper.insert hproper fun name hmem => ?_, ?_⟩, hlook⟩
  · rw [hplace] at hmem
    rcases List.mem_append.1 hmem with hmem | hmem
    · exact hsound.proper.names_of_look (ne_none_of_eq hparent) name hmem
    · exact List.mem_singleton.1 hmem ▸ hname
  · show (system.put (system.placeOf path) new).look system.directory = _
    rw [hlook, if_neg]
    · exact hsound.here
    · exact fun heq => hfree (heq ▸ hsound.here)

/-! ### Making directories -/

/-- At some places directories have been made where nothing stood; nothing else has changed. -/
structure Makes (before after : FileSystem) (places : List (List Text)) : Prop where
  sound : after.Sound
  directory_eq : after.directory = before.directory
  made : ∀ place ∈ places, before.look place = none → after.look place = some .directory
  kept : ∀ place, before.look place ≠ none → after.look place = before.look place
  others : ∀ place, place ∉ places → after.look place = before.look place

theorem Makes.refl (hsound : system.Sound) {places : List (List Text)}
    (h : ∀ place ∈ places, system.look place ≠ none) : Makes system system places :=
  ⟨hsound, rfl, fun place hmem hnone => absurd hnone (h place hmem), fun _ _ => rfl, fun _ _ => rfl⟩

theorem Makes.append {first second third : FileSystem} {places places' : List (List Text)}
    (h : Makes first second places) (h' : Makes second third places') :
    Makes first third (places ++ places') := by
  refine ⟨h'.sound, h'.directory_eq.trans h.directory_eq, fun place hmem hnone => ?_,
    fun place hsome => ?_, fun place hnot => ?_⟩
  · cases hlook : second.look place with
    | none =>
      rcases List.mem_append.1 hmem with hmem | hmem
      · rw [h.made place hmem hnone] at hlook
        cases hlook
      · exact h'.made place hmem hlook
    | some occupant =>
      by_cases hplace : place ∈ places
      · rw [h'.kept place (ne_none_of_eq hlook)]
        exact h.made place hplace hnone
      · rw [h.others place hplace, hnone] at hlook
        cases hlook
  · have heq := h.kept place hsome
    rw [h'.kept place (heq ▸ hsome), heq]
  · rw [List.mem_append, not_or] at hnot
    rw [h'.others place hnot.2, h.others place hnot.1]

theorem Makes.of_subset {before after : FileSystem} {places places' : List (List Text)}
    (h : Makes before after places) (hsub : places ⊆ places')
    (hpresent : ∀ place ∈ places', place ∉ places → before.look place ≠ none) :
    Makes before after places' := by
  refine ⟨h.sound, h.directory_eq, fun place hmem hnone => ?_, h.kept,
    fun place hnot => h.others place fun hmem => hnot (hsub hmem)⟩
  exact h.made place (Decidable.byContradiction fun hnot => hpresent place hmem hnot hnone) hnone

/-- No file is made. -/
theorem Makes.no_file {before after : FileSystem} {places : List (List Text)}
    (h : Makes before after places) {place : List Text}
    (hfile : ∀ bytes, before.look place ≠ some (.file bytes)) (bytes : List UInt8) :
    after.look place ≠ some (.file bytes) := by
  intro hlook
  by_cases hmem : place ∈ places
  · cases hbefore : before.look place with
    | none => rw [h.made place hmem hbefore] at hlook; cases hlook
    | some occupant => exact hfile bytes ((h.kept place (ne_none_of_eq hbefore)).symm.trans hlook)
  · exact hfile bytes ((h.others place hmem).symm.trans hlook)

/-- A directory stays a directory. -/
theorem Makes.directory {before after : FileSystem} {places : List (List Text)}
    (h : Makes before after places) {place : List Text}
    (hlook : before.look place = some .directory) : after.look place = some .directory :=
  (h.kept place (ne_none_of_eq hlook)).trans hlook

/-- What had no file is a directory after it has been made. -/
theorem Makes.directory_of_mem {before after : FileSystem} {places : List (List Text)}
    (h : Makes before after places) {place : List Text} (hmem : place ∈ places)
    (hfile : ∀ bytes, before.look place ≠ some (.file bytes)) :
    after.look place = some .directory := by
  cases hlook : before.look place with
  | none => exact h.made place hmem hlook
  | some occupant =>
    cases occupant with
    | directory => exact h.directory hlook
    | file bytes => exact absurd hlook (hfile bytes)

/-- A path leads to the same place from the same directory. -/
theorem placeOf_congr (h : after.directory = system.directory) (path : Text) :
    after.placeOf path = system.placeOf path ∧ after.places path = system.places path := by
  have hstart : after.start path = system.start path := by rw [start, start, h]
  rw [placeOf, placeOf, places, places, hstart]
  exact ⟨rfl, rfl⟩

/-- Making a directory where the one above it is there. -/
theorem makeLast_spec (hsound : system.Sound) (h : system.Reaches path)
    (hfile : ∀ bytes, system.look (system.placeOf path) ≠ some (.file bytes)) :
    ∃ after, system.makeLast path = (.ok (), after) ∧ Makes system after [system.placeOf path] := by
  have hcheck := h.nameable.check
  cases hlook : system.look (system.placeOf path) with
  | none =>
    have hmake : system.makeDirectory path =
        .ok (system.put (system.placeOf path) FileTree.emptyDir) := by
      have hfind : system.root.find? (system.placeOf path) = none :=
        Option.map_eq_none_iff.1 hlook
      simp only [makeDirectory, h.locate, bind, Except.bind, hfind]
      rfl
    obtain ⟨hsound', hlook'⟩ := h.put hsound FileTree.isLeaf_emptyDir FileTree.proper_emptyDir
      (by rw [hlook]; exact nofun)
    refine ⟨_, ?_, hsound', rfl, fun place hmem _ => ?_, fun place hsome => ?_, fun place hnot => ?_⟩
    · rw [makeLast, ensureDirectory, hmake, atPath, hcheck]
      rfl
    · rw [hlook', if_pos (List.mem_singleton.1 hmem)]
      rfl
    · rw [hlook', if_neg fun heq : place = _ => hsome (heq ▸ hlook)]
    · rw [hlook', if_neg fun heq => hnot (List.mem_singleton.2 heq)]
  | some occupant =>
    cases occupant with
    | file bytes => exact absurd hlook (hfile bytes)
    | directory =>
      obtain ⟨entries, hfind⟩ := FileTree.look_eq_directory_iff.1 hlook
      have hmake : system.makeDirectory path = .error .exists := by
        simp only [makeDirectory, h.locate, bind, Except.bind, hfind]
      refine ⟨system, ?_, .refl hsound fun place hmem => ?_⟩
      · have hthere := directory?_eq_some_iff.2 ⟨h, entries, rfl, hfind⟩
        rw [makeLast, ensureDirectory, hmake, atPath, hcheck]
        simp only [hthere]
        rfl
      · rw [List.mem_singleton.1 hmem]
        exact ne_none_of_eq hlook

theorem places_of_parts (system : FileSystem) {directory last : Text}
    (h : Parts path directory last)
    (hdirectory : directory ≠ []) (hlast : last ≠ []) :
    system.places path = system.places directory ++ [system.placeOf path] := by
  rw [places, places, placeOf, start_of_prefix h.is_beginning hdirectory,
    h.components_of_ne hlast, places_concat]

/-- Where the directory above a path is there, or there is none, only the last one may be missing. -/
theorem reaches_of_above (hsound : system.Sound) (hne : path ≠ []) (hnameable : IsNameable path)
    (hfile : ∀ place ∈ system.places path, ∀ bytes, system.look place ≠ some (.file bytes))
    (habove : (above path).2 ≠ [] → (above path).1 ≠ [] → system.hasEntry (above path).1) :
    system.Reaches path := by
  refine ⟨hne, hnameable, fun place hplace => ?_⟩
  have hparts := parts_above path
  by_cases hlast : (above path).2 = []
  · rw [places, components_of_above_eq_nil hlast] at hplace
    exact absurd hplace List.not_mem_nil
  by_cases hdirectory : (above path).1 = []
  · have hcomponents := hparts.components_of_ne hlast
    rw [hdirectory] at hcomponents
    rw [places, hcomponents, places_concat, List.dropLast_concat] at hplace
    rw [List.mem_singleton.1 hplace]
    exact hsound.start path
  obtain ⟨hreaches, hthere⟩ := reaches_of_hasEntry (habove hlast hdirectory)
  have hplaces := places_of_parts system hparts hdirectory hlast
  rw [hplaces, List.dropLast_concat] at hplace
  have hnofile := hfile place (hplaces ▸ List.mem_append_left _ hplace)
  rw [places, places_eq_concat] at hplace
  rcases List.mem_append.1 hplace with hplace | hplace
  · exact hreaches.before place hplace
  · rw [List.mem_singleton.1 hplace] at hnofile ⊢
    cases hlook : system.look (system.placeOf (above path).1) with
    | none => exact absurd hlook hthere
    | some occupant =>
      cases occupant with
      | directory => exact hlook
      | file bytes => exact absurd hlook (hnofile bytes)

/-- **A directory is made with all those above it**, where no file is in the way. -/
theorem makeDirectories_spec (hsound : system.Sound) (hne : path ≠ []) (hnameable : IsNameable path)
    (hfile : ∀ place ∈ system.places path, ∀ bytes, system.look place ≠ some (.file bytes)) :
    ∃ after, system.makeDirectories path = (.ok (), after) ∧
      Makes system after (system.places path) := by
  induction hlength : path.length using Nat.strongRecOn generalizing path with
  | ind length ih =>
    have hparts := parts_above path
    rw [makeDirectories]
    split
    · rename_i hmissing
      obtain ⟨hlast, hdirectory, -⟩ := hmissing
      have hplaces := places_of_parts system hparts hdirectory hlast
      have hfile' : ∀ place ∈ system.places (above path).1, ∀ bytes,
          system.look place ≠ some (.file bytes) :=
        fun place hmem => hfile place (hplaces ▸ List.mem_append_left _ hmem)
      obtain ⟨made, hmade, hmakes⟩ := ih _ (hlength ▸ above_length hlast) hdirectory
        (hparts.isNameable hnameable) hfile' rfl
      obtain ⟨hplace, hplaces'⟩ := placeOf_congr hmakes.directory_eq path
      simp only [hmade, isObstacle, Bool.false_eq_true, if_false]
      split
      · -- the last component stays where it is, so its place has been made
        rename_i hhere
        refine ⟨made, rfl, hmakes.of_subset (hplaces ▸ List.subset_append_left _ _)
          fun place hmem hnot => absurd ?_ hnot⟩
        have hsame : system.placeOf path = system.placeOf (above path).1 := by
          rw [placeOf, placeOf, start_of_prefix hparts.is_beginning hdirectory,
            hparts.components_of_ne hlast, hhere, lead_append]
          rfl
        rw [hplaces, hsame] at hmem
        rcases List.mem_append.1 hmem with hmem | hmem
        · exact hmem
        · exact List.mem_singleton.1 hmem ▸ lead_mem_places _ _
      · have hreaches : made.Reaches path := by
          refine ⟨hne, hnameable, fun place hmem => ?_⟩
          rw [hplaces', hplaces, List.dropLast_concat] at hmem
          exact hmakes.directory_of_mem hmem (hfile' place hmem)
        obtain ⟨after, hafter, hmakes'⟩ := makeLast_spec hmakes.sound hreaches
          (hmakes.no_file (hplace ▸ hfile _ (lead_mem_places _ _)))
        refine ⟨after, hafter, ?_⟩
        rw [hplaces, ← hplace]
        exact hmakes.append hmakes'
    · rename_i hthere
      have hreaches := reaches_of_above hsound hne hnameable hfile fun hlast hdirectory =>
        Decidable.byContradiction fun hmissing =>
          hthere ⟨hlast, hdirectory, by simpa using hmissing⟩
      have hlast : ∀ bytes, system.look (system.placeOf path) ≠ some (.file bytes) :=
        hfile _ (lead_mem_places _ _)
      obtain ⟨after, hafter, hmakes⟩ := makeLast_spec hsound hreaches hlast
      refine ⟨after, hafter, hmakes.of_subset (fun place hmem => ?_) fun place hmem hnot => ?_⟩
      · exact List.mem_singleton.1 hmem ▸ lead_mem_places _ _
      · rw [places, places_eq_concat] at hmem
        rcases List.mem_append.1 hmem with hmem | hmem
        · exact ne_none_of_eq (hreaches.before place hmem)
        · exact absurd hmem hnot

/-! ### Writing files -/

/-- A file has been written, with directories at some places where nothing stood; nothing else has
changed. -/
structure Writes (before after : FileSystem) (places : List (List Text)) (file : List Text)
    (bytes : List UInt8) : Prop where
  sound : after.Sound
  directory_eq : after.directory = before.directory
  written : after.look file = some (.file bytes)
  made : ∀ place ∈ places, before.look place = none → after.look place = some .directory
  kept : ∀ place, place ≠ file → before.look place ≠ none → after.look place = before.look place
  others : ∀ place, place ≠ file → place ∉ places → after.look place = before.look place

/-- No other file is written or changed. -/
theorem Writes.look_eq_file_iff {before after : FileSystem} {places : List (List Text)}
    {file : List Text} {bytes : List UInt8} (h : Writes before after places file bytes)
    {place : List Text} (hne : place ≠ file) (octets : List UInt8) :
    after.look place = some (.file octets) ↔ before.look place = some (.file octets) := by
  cases hlook : before.look place with
  | some occupant => rw [h.kept place hne (ne_none_of_eq hlook), hlook]
  | none =>
    refine ⟨fun hafter => ?_, nofun⟩
    by_cases hmem : place ∈ places
    · rw [h.made place hmem hlook] at hafter
      cases hafter
    · rw [h.others place hne hmem, hlook] at hafter
      cases hafter

/-- A file goes where its path leads, unless that is a directory. -/
theorem Reaches.writePlace (h : system.Reaches path) (hends : endsWithSlash path = false)
    (hcomponents : Path.components path ≠ []) : system.writePlace path =
      if system.look (system.placeOf path) = some .directory then .error .isADirectory
      else .ok (system.placeOf path) := by
  obtain ⟨components, component, heq⟩ :
      ∃ components component, Path.components path = components ++ [component] :=
    ⟨_, _, (List.dropLast_concat_getLast hcomponents).symm⟩
  have hbefore : ∀ passed ∈ Path.places (system.start path) components,
      system.look passed = some .directory := by
    intro passed hmem
    refine h.before passed ?_
    rwa [places, heq, places_concat, List.dropLast_concat]
  have hparent := hbefore _ (lead_mem_places _ _)
  have hsteps : components.foldlM system.step (system.start path) =
      .ok (lead (system.start path) components) :=
    steps_eq_ok_iff.2 ⟨fun c hc => h.nameable.component_le c (heq ▸ List.mem_append_left _ hc),
      fun place hmem => hbefore place (List.dropLast_subset _ hmem), rfl⟩
  have hwalk : system.walk path (Path.components path).dropLast =
      .ok (lead (system.start path) components) := by
    rw [FileSystem.walk, if_neg (by simpa using h.ne_nil),
      if_neg (Nat.not_lt.2 h.nameable.path_le), heq, List.dropLast_concat, hsteps]
  have hlocate : system.locateParent path = .ok (lead (system.start path) components) := by
    rw [locateParent, hwalk]
    exact demandDirectory_eq_ok_iff.2 ⟨hparent, rfl⟩
  have hstep : system.step (lead (system.start path) components) component =
      .ok (system.placeOf path) := by
    refine step_eq_ok_iff.2 ⟨hparent, h.nameable.component_le _
      (heq ▸ List.mem_append_right _ List.mem_cons_self), ?_⟩
    rw [placeOf, heq, lead_append]
    rfl
  rw [FileSystem.writePlace, hlocate]
  simp only [bind, Except.bind, hends, Bool.false_eq_true, if_false, heq, List.getLast?_concat,
    Option.getD_some, hstep]
  split
  · rename_i hfind
    have hlook : system.look (system.placeOf path) = some .directory :=
      FileTree.look_eq_directory_iff.2 ⟨_, hfind⟩
    rw [if_pos hlook]
  · rename_i hfind
    have hlook : system.look (system.placeOf path) ≠ some .directory := fun hlook =>
      (FileTree.look_eq_directory_iff.1 hlook).elim hfind
    rw [if_neg hlook]
    rfl

theorem Reaches.writeFile (h : system.Reaches path) (hends : endsWithSlash path = false)
    (hcomponents : Path.components path ≠ []) (bytes : List UInt8) :
    system.writeFile path bytes =
      if system.look (system.placeOf path) = some .directory then
        .error (.file .isADirectory path)
      else .ok (system.put (system.placeOf path) (.file bytes)) := by
  rw [FileSystem.writeFile, h.writePlace hends hcomponents]
  split <;> rw [atPath, h.nameable.check] <;> rfl

end FileSystem

namespace Files

open FileSystem

section WriteBelow

variable {system : FileSystem} {path : Text}

/-- The directories above a file are made, and then its path leads where it goes. -/
theorem makeDirectories_dirname (hsound : system.Sound) (hnameable : IsNameable path)
    (hends : endsWithSlash path = false) (hne : dirname path ≠ [])
    (hfile : ∀ place ∈ system.places (dirname path), ∀ bytes,
      system.look place ≠ some (.file bytes)) :
    ∃ made, system.makeDirectories (dirname path) = (.ok (), made) ∧
      Makes system made (system.places (dirname path)) ∧ made.Reaches path ∧
      components path ≠ [] := by
  have hparts : Parts path (dirname path) (split path).2 := parts_split path
  have hpath : path ≠ [] := fun hnil => hne (by rw [hnil]; rfl)
  have hlast : (split path).2 ≠ [] := last_ne_nil hpath hends
  obtain ⟨made, hmade, hmakes⟩ := makeDirectories_spec hsound hne (hparts.isNameable hnameable) hfile
  refine ⟨made, hmade, hmakes, ⟨hpath, hnameable, fun place hmem => ?_⟩, ?_⟩
  · rw [(placeOf_congr hmakes.directory_eq path).2, places_of_parts system hparts hne hlast,
      List.dropLast_concat] at hmem
    exact hmakes.directory_of_mem hmem (hfile place hmem)
  · rw [hparts.components_of_ne hlast]
    exact List.concat_ne_nil _ _

/-- **A file is written with the directories above it**, where no file is in the way of these and
no directory stands where it goes. -/
theorem writeBelow_spec (hsound : system.Sound) (hnameable : IsNameable path)
    (hends : endsWithSlash path = false) (hne : dirname path ≠ [])
    (hfile : ∀ place ∈ system.places (dirname path), ∀ bytes,
      system.look place ≠ some (.file bytes))
    (hfree : system.look (system.placeOf path) ≠ some .directory)
    (hapart : system.placeOf path ∉ system.places (dirname path)) (text : Text) :
    ∃ after, writeBelow system (dirname path) path text = (.ok (), after) ∧
      Writes system after (system.places (dirname path)) (system.placeOf path)
        (text.flatMap Utf8.encodePoint) := by
  obtain ⟨made, hmade, hmakes, hreaches, hcomponents⟩ :=
    makeDirectories_dirname hsound hnameable hends hne hfile
  have hplace := (placeOf_congr hmakes.directory_eq path).1
  have hfree' : made.look (made.placeOf path) ≠ some .directory := by
    rwa [hplace, hmakes.others _ hapart]
  obtain ⟨hsound', hlook⟩ := hreaches.put hmakes.sound
    (FileTree.isLeaf_file (text.flatMap Utf8.encodePoint)) (.file _) hfree'
  refine ⟨_, ?_, hsound', hmakes.directory_eq, ?_, fun place hmem hnone => ?_,
    fun place hother hsome => ?_, fun place hother hnot => ?_⟩
  · rw [writeBelow, hmade]
    show writeText made path text = _
    rw [writeText, hreaches.writeFile hends hcomponents, if_neg hfree']
  · rw [hlook, if_pos hplace.symm]
    rfl
  · rw [hlook, if_neg (hplace ▸ fun heq => hapart (heq ▸ hmem))]
    exact hmakes.made place hmem hnone
  · rw [hlook, if_neg (hplace ▸ hother)]
    exact hmakes.kept place hsome
  · rw [hlook, if_neg (hplace ▸ hother)]
    exact hmakes.others place hnot

/-- **A path that leads through the place of its own file** makes a directory there, and the file
cannot be written. -/
theorem writeBelow_detour (hsound : system.Sound) (hnameable : IsNameable path)
    (hends : endsWithSlash path = false) (hne : dirname path ≠ [])
    (hfile : ∀ place ∈ system.places (dirname path), ∀ bytes,
      system.look place ≠ some (.file bytes))
    (hdetour : system.placeOf path ∈ system.places (dirname path)) (text : Text) :
    (writeBelow system (dirname path) path text).1 = .error (.file .isADirectory path) := by
  obtain ⟨made, hmade, hmakes, hreaches, hcomponents⟩ :=
    makeDirectories_dirname hsound hnameable hends hne hfile
  have hplace := (placeOf_congr hmakes.directory_eq path).1
  have hdirectory : made.look (made.placeOf path) = some .directory := by
    rw [hplace]
    exact hmakes.directory_of_mem hdetour (hfile _ hdetour)
  rw [writeBelow, hmade]
  show (writeText made path text).1 = _
  rw [writeText, hreaches.writeFile hends hcomponents, if_pos hdirectory]

end WriteBelow

end Files

end AvroJsonSchema
