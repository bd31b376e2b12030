import AvroJsonSchema.Proofs.FileSystems

/-!
# What operations on files leave alone

Whatever becomes of an operation, no directory disappears, and a file changes only if it is the one
that is written.

* **`FileSystem.Keeps`**: what an operation leaves alone.
* **`FileSystem.keeps_makeDirectories`**, **`FileSystem.keeps_writeFile`**: the operations on paths.
* **`Files.keeps_writeBelow`**: writing a file with the directories above it.
-/

namespace AvroJsonSchema

open AvroJsonSchema.Path

namespace FileSystem

variable {system after : FileSystem} {path : Text} {P : List Text → Prop}

/-- The files at some places are as before, and every directory is still there. -/
structure Keeps (P : List Text → Prop) (before after : FileSystem) : Prop where
  sound : after.Sound
  directory_eq : after.directory = before.directory
  directories : ∀ place, before.look place = some .directory → after.look place = some .directory
  files : ∀ place bytes, P place →
    (after.look place = some (.file bytes) ↔ before.look place = some (.file bytes))

theorem Keeps.refl (h : system.Sound) : Keeps P system system :=
  ⟨h, rfl, fun _ => id, fun _ _ _ => Iff.rfl⟩

theorem Keeps.trans {first second third : FileSystem} (h : Keeps P first second)
    (h' : Keeps P second third) : Keeps P first third :=
  ⟨h'.sound, h'.directory_eq.trans h.directory_eq, fun place hd => h'.directories place
    (h.directories place hd), fun place bytes hP => (h'.files place bytes hP).trans
    (h.files place bytes hP)⟩

/-- What a path led to, it still leads to. -/
theorem Keeps.reaches (h : Keeps P system after) (hreaches : system.Reaches path) :
    after.Reaches path := by
  refine ⟨hreaches.ne_nil, hreaches.nameable, fun place hmem => ?_⟩
  rw [(placeOf_congr h.directory_eq path).2] at hmem
  exact h.directories place (hreaches.before place hmem)

/-- Something put where no directory stood changes only what was there. -/
theorem Reaches.keeps_put (h : system.Reaches path) (hsound : system.Sound) {new : FileTree}
    (hnew : new.IsLeaf) (hproper : new.Proper)
    (hfree : system.look (system.placeOf path) ≠ some .directory)
    (hP : P (system.placeOf path) →
      system.look (system.placeOf path) = none ∧ new.occupant = .directory) :
    Keeps P system (system.put (system.placeOf path) new) := by
  obtain ⟨hsound', hlook⟩ := h.put hsound hnew hproper hfree
  refine ⟨hsound', rfl, fun place hd => ?_, fun place bytes hplace => ?_⟩
  · rw [hlook, if_neg fun heq : place = system.placeOf path => hfree (heq ▸ hd), hd]
  · rw [hlook]
    split
    · rename_i heq
      obtain ⟨hnone, hdirectory⟩ := hP (heq ▸ hplace)
      rw [heq, hnone, hdirectory]
      exact ⟨nofun, nofun⟩
    · exact Iff.rfl

/-! ### Making directories -/

theorem eq_ok_of_atPath {α : Type} {x : Except FileProblem α} {a : α}
    (h : atPath path x = .ok a) : check path = .ok () ∧ x = .ok a := by
  obtain ⟨u, hcheck, h⟩ := bind_eq_ok_iff.1 h
  cases x with
  | error problem => cases h
  | ok b => exact ⟨hcheck, congrArg Except.ok (Except.ok.inj h)⟩

/-- A directory is made where its path leads and nothing stands. -/
theorem reaches_of_makeDirectory (hcheck : check path = .ok ())
    (h : system.makeDirectory path = .ok after) :
    system.Reaches path ∧ system.look (system.placeOf path) = none ∧
      after = system.put (system.placeOf path) FileTree.emptyDir := by
  obtain ⟨place, hlocate, h⟩ := bind_eq_ok_iff.1 h
  obtain ⟨hreaches, rfl⟩ := reaches_of_locate hcheck hlocate
  split at h
  · cases h
  · rename_i hfind
    exact ⟨hreaches, Option.map_eq_none_iff.2 hfind, (Except.ok.inj h).symm⟩

theorem keeps_ensureDirectory (hsound : system.Sound)
    (h : system.ensureDirectory path = .ok after) : Keeps P system after := by
  unfold ensureDirectory at h
  split at h
  · rename_i made hmade
    obtain rfl := Except.ok.inj h
    obtain ⟨hcheck, hmake⟩ := eq_ok_of_atPath hmade
    obtain ⟨hreaches, hnone, rfl⟩ := reaches_of_makeDirectory hcheck hmake
    exact hreaches.keeps_put hsound FileTree.isLeaf_emptyDir FileTree.proper_emptyDir
      (by rw [hnone]; exact nofun) fun _ => ⟨hnone, rfl⟩
  · split at h
    · obtain rfl := Except.ok.inj h
      exact .refl hsound
    · cases h

theorem keeps_makeLast (hsound : system.Sound) (path : Text) :
    Keeps P system (system.makeLast path).2 := by
  unfold makeLast
  split
  · rename_i made hmade
    exact keeps_ensureDirectory hsound hmade
  · exact .refl hsound

/-- **Making a directory changes no file**, whether it succeeds or not. -/
theorem keeps_makeDirectories (hsound : system.Sound) (path : Text) :
    Keeps P system (system.makeDirectories path).2 := by
  induction hlength : path.length using Nat.strongRecOn generalizing path with
  | ind length ih =>
    rw [makeDirectories]
    split
    · rename_i hmissing
      have hmade := ih _ (hlength ▸ above_length hmissing.1) _ rfl
      simp only
      split
      · exact hmade
      · split
        · exact hmade
        · exact hmade.trans (keeps_makeLast hmade.sound path)
    · exact keeps_makeLast hsound path

/-! ### Writing files -/

/-- The directory that a path is looked up in is reached along all components but the last. -/
theorem locateParent_eq_ok {parent : List Text} (h : system.locateParent path = .ok parent) :
    path ≠ [] ∧ octetCount path ≤ pathLimit ∧
      (components path).dropLast.foldlM system.step (system.start path) = .ok parent := by
  obtain ⟨place, hwalk, h⟩ := bind_eq_ok_iff.1 h
  obtain ⟨-, rfl⟩ := demandDirectory_eq_ok_iff.1 h
  unfold FileSystem.walk at hwalk
  split at hwalk
  · cases hwalk
  · rename_i hne
    split at hwalk
    · cases hwalk
    · rename_i hle
      exact ⟨by simpa using hne, Nat.not_lt.1 hle, hwalk⟩

/-- A file can only be written where its path leads. -/
theorem reaches_of_writePlace (hcheck : check path = .ok ()) {place : List Text}
    (h : system.writePlace path = .ok place) : system.Reaches path ∧ place = system.placeOf path ∧
      system.look place ≠ some .directory := by
  obtain ⟨parent, hparent, h⟩ := bind_eq_ok_iff.1 h
  obtain ⟨hne, hle, hsteps⟩ := locateParent_eq_ok hparent
  split at h
  · cases h
  · rename_i hends
    obtain ⟨front, last, hcomponents⟩ : ∃ front last, components path = front ++ [last] :=
      ⟨_, _, (parts_split path).components_of_ne (last_ne_nil hne (by simpa using hends))⟩
    obtain ⟨reached, hstep, h⟩ := bind_eq_ok_iff.1 h
    rw [hcomponents, List.getLast?_concat, Option.getD_some] at hstep
    -- all components have been followed, the last one from the directory of the others
    have hall : (components path).foldlM system.step (system.start path) = .ok reached := by
      rw [hcomponents, List.dropLast_concat] at hsteps
      rw [hcomponents, List.foldlM_append, hsteps]
      exact (bind_pure _).trans hstep
    obtain ⟨hles, hbefore, rfl⟩ := steps_eq_ok_iff.1 hall
    split at h
    · cases h
    · rename_i hfree
      obtain rfl := Except.ok.inj h
      refine ⟨⟨hne, ⟨check_eq_ok_iff.1 hcheck, hle, hles⟩, hbefore⟩, rfl, fun hdirectory => ?_⟩
      obtain ⟨entries, hfind⟩ := FileTree.look_eq_directory_iff.1 hdirectory
      exact hfree entries hfind

/-- **Writing a file changes no other file.** -/
theorem keeps_writeFile (hsound : system.Sound) {bytes : List UInt8}
    (h : system.writeFile path bytes = .ok after) (hP : ¬P (system.placeOf path)) :
    Keeps P system after := by
  unfold writeFile at h
  cases hplace : atPath path (system.writePlace path) with
  | error fault =>
    rw [hplace] at h
    cases h
  | ok place =>
    rw [hplace] at h
    obtain rfl := Except.ok.inj h
    obtain ⟨hcheck, hwrite⟩ := eq_ok_of_atPath hplace
    obtain ⟨hreaches, rfl, hfree⟩ := reaches_of_writePlace hcheck hwrite
    exact hreaches.keeps_put hsound (FileTree.isLeaf_file bytes) (.file bytes) hfree
      fun hkept => absurd hkept hP

end FileSystem

namespace Files

open FileSystem

variable {system : FileSystem} {path : Text} {P : List Text → Prop}

theorem keeps_writeText (hsound : system.Sound) (hP : ¬P (system.placeOf path)) (text : Text) :
    Keeps P system (writeText system path text).2 := by
  unfold writeText
  split
  · rename_i after hwrite
    exact keeps_writeFile hsound hwrite hP
  · exact .refl hsound

/-- **A file is written with the directories above it, and no other file changes**, whether it can
be written or not. -/
theorem keeps_writeBelow (hsound : system.Sound) (hP : ¬P (system.placeOf path))
    (directory text : Text) : Keeps P system (writeBelow system directory path text).2 := by
  have hmade := keeps_makeDirectories (P := P) hsound directory
  unfold writeBelow
  split
  · rename_i made heq
    rw [heq] at hmade
    exact hmade.trans (keeps_writeText hmade.sound
      (by rwa [(placeOf_congr hmade.directory_eq path).1]) text)
  · rename_i made heq
    rwa [heq] at hmade

end Files

end AvroJsonSchema
