import AvroJsonSchema.CommandLine.Needs
import AvroJsonSchema.Proofs.Addresses
import AvroJsonSchema.Proofs.EntryPoints

/-!
# Single conversions write all or nothing

The conversion of one schema has its document before it looks at where the document goes, and the file
is the last thing that is touched.  So whatever fails, the options, the reading, the registry, the
conversion or the opening of the output, no file has been created or changed; and what succeeds has
written the document and nothing else.  Directories above an output may have been made before a fault.

* **`Files.Untouched`**: no file has been created or changed.
* **`Files.Leaves`**: what becomes of the files.
* **`Files.convertFile_leaves`**, **`CommandLine.runOne_leaves`**: the drivers.
* **`CommandLine.requests_readSchema`**: the requests that are made for a schema.
* **`CommandLine.single_conversions_all_or_nothing`**: all of it together.
-/

namespace AvroJsonSchema

/-! ### Files -/

namespace Files

open FileSystem

variable {system after : FileSystem} {path document : Text} {P : List Text → Prop}

/-- No file has been created or changed. -/
def Untouched (before after : FileSystem) : Prop :=
  Keeps (fun _ => True) before after

/-- What a conversion leaves of a file system, by what it returns: without a document no file has been
touched; a document is the converted text, and it is in the output file, and no other file has been
touched, or it is not wanted in a file. -/
inductive Leaves (before : FileSystem) (output : Option Text) (converted : Except Fault Text) :
    Option Text → FileSystem → Prop
  | nothing {after : FileSystem} : Untouched before after → Leaves before output converted none after
  | returned {document : Text} : converted = .ok document → output = none →
    Leaves before output converted (some document) before
  | written {document path : Text} {octets : List UInt8} {after : FileSystem} :
    converted = .ok document → output = some path →
    Keeps (fun place => place ≠ before.placeOf path) before after →
    Utf8.encode document = .ok octets → after.readFile path = .ok octets →
    Leaves before output converted (some document) after

/-- The document that is left is the converted text. -/
theorem Leaves.converted {output : Option Text} {converted : Except Fault Text}
    (h : Leaves system output converted (some document) after) : converted = .ok document := by
  cases h with
  | returned hconverted => exact hconverted
  | written hconverted => exact hconverted

/-- A file that cannot be written changes nothing. -/
theorem eq_of_writeText_error {fault : Fault}
    (h : writeText system path document = (.error fault, after)) : after = system := by
  unfold writeText at h
  split at h
  · cases h
  · exact (Prod.mk.inj h).2.symm

/-- Making the directories above an output touches no file, and what comes after it either writes the
output or changes nothing. -/
theorem untouched_of_writeOutput_error (hsound : system.Sound) {fault : Fault}
    (h : writeOutput system path document = (.error fault, after)) : Untouched system after := by
  rw [writeOutput] at h
  split at h
  · cases h
  split at h
  · rw [eq_of_writeText_error h]
    exact .refl hsound
  · have hmade : Untouched system (system.makeDirectories (Path.dirname path)).2 :=
      keeps_makeDirectories hsound _
    rw [writeBelow] at h
    split at h
    · rename_i made heq
      rw [eq_of_writeText_error h]
      rwa [heq] at hmade
    · rename_i made heq
      obtain ⟨-, rfl⟩ := Prod.mk.inj h
      rwa [heq] at hmade

/-- A document that has been written has changed no other file. -/
theorem keeps_writeOutput (hsound : system.Sound) (hP : ¬P (system.placeOf path)) (document : Text) :
    Keeps P system (writeOutput system path document).2 := by
  rw [writeOutput]
  split
  · exact .refl hsound
  split
  · exact keeps_writeText hsound hP document
  · exact keeps_writeBelow hsound hP _ document

/-- **The conversion of a file writes its document or touches no file.** -/
theorem convertFile_leaves (hsound : system.Sound) (input output : Text) (preset : Json)
    (draft : Option Draft) :
    Leaves system (if output = [] then none else some output)
      (readText system input >>= Document.ofTextWith preset draft)
      (convertFile system input output preset draft).1.toOption
      (convertFile system input output preset draft).2 := by
  rw [convertFile]
  cases hconverted : readText system input >>= Document.ofTextWith preset draft with
  | error fault => exact .nothing (.refl hsound)
  | ok document =>
    obtain ⟨text, -, hdocument⟩ := FileSystem.bind_eq_ok_iff.1 hconverted
    have hscalar := (Document.isAscii_ofTextWith hdocument).isScalar
    dsimp only
    cases hwritten : writeOutput system output document with
    | mk result after =>
      cases result with
      | error fault => exact .nothing (untouched_of_writeOutput_error hsound hwritten)
      | ok _ =>
        have hkeeps := keeps_writeOutput (P := fun place => place ≠ system.placeOf output) hsound
          (fun h => h rfl) document
        rw [hwritten] at hkeeps
        by_cases hne : output = []
        · obtain rfl : system = after := by
            rw [hne] at hwritten
            exact (Prod.mk.inj hwritten).2
          exact .returned rfl (if_pos hne)
        · exact .written rfl (if_neg hne) hkeeps (Utf8.encode_of_isScalar hscalar)
            (readFile_of_writeOutput hsound hne hwritten)

end Files

/-! ### The command -/

namespace CommandLine

open Files

variable {world : World} {a : ConvertOne}

/-- The texts that a success names, the paths and the subject, can be printed. -/
structure Printable (a : ConvertOne) : Prop where
  input : ∀ t, given a.input = some t → t.IsScalar
  output : ∀ t, given a.output = some t → t.IsScalar
  subject : ∀ t, given a.subject = some t → t.IsScalar

theorem Printable.sourceName (h : Printable a) : (sourceName a).IsScalar := by
  unfold CommandLine.sourceName
  cases hinput : given a.input with
  | some path => exact h.input path hinput
  | none =>
    cases hsubject : given a.subject with
    | some subject => exact h.subject subject hsubject
    | none =>
      show (Text.ofString "stdin").IsScalar
      decide

/-- What a success says can be printed. -/
theorem Printable.isScalar_success (h : Printable a) {path : Text} (hpath : given a.output = some path) :
    (Text.ofString "Successfully converted " ++ CommandLine.sourceName a ++ Text.ofString " to "
      ++ path ++ Text.ofString "\n").IsScalar :=
  ((((show (Text.ofString "Successfully converted ").IsScalar by decide).append h.sourceName).append
    (by decide)).append (h.output path hpath)).append (by decide)

/-- **A single conversion ends with status one and touches no file, or it ends with status zero and
prints its document or writes it.** -/
theorem runOne_leaves (hsound : world.files.Sound) (hprintable : Printable a) :
    ((runOne world a).status = 1 ∧ Untouched world.files (runOne world a).files) ∨
    ((runOne world a).status = 0 ∧ (runOne world a).printed.IsScalar ∧
      ∃ document, Leaves world.files (given a.output)
        ((readSchema world a).1 >>= convertText a.style) (some document) (runOne world a).files ∧
        (given a.output = none → (runOne world a).printed = document ++ Text.ofString "\n")) := by
  rw [runOne]
  dsimp only
  cases hconverted : (readSchema world a).1 >>= convertText a.style with
  | error fault => exact .inl ⟨rfl, .refl hsound⟩
  | ok document =>
    obtain ⟨text, -, hdocument⟩ := FileSystem.bind_eq_ok_iff.1 hconverted
    have hscalar := (Document.isAscii_ofTextWith hdocument).isScalar
    dsimp only
    rw [deliver]
    cases houtput : given a.output with
    | none =>
      exact .inr ⟨rfl, hscalar.append (by decide), document, .returned rfl rfl, fun _ => rfl⟩
    | some path =>
      dsimp only
      cases hwritten : writeText world.files path document with
      | mk result after =>
        cases result with
        | error fault =>
          rw [eq_of_writeText_error hwritten]
          exact .inl ⟨rfl, .refl hsound⟩
        | ok _ =>
          have hkeeps := keeps_writeText (P := fun place => place ≠ world.files.placeOf path) hsound
            (fun h => h rfl) document
          rw [hwritten] at hkeeps
          exact .inr ⟨rfl, hprintable.isScalar_success houtput, document, .written rfl rfl hkeeps
            (Utf8.encode_of_isScalar hscalar) (readFile_of_writeText hsound hwritten),
            fun hnone => absurd hnone (Option.some_ne_none path)⟩

/-- At most one request is made for the schema of a subject. -/
theorem length_requests_fetch (client : Registry.Client) (network : Registry.Network)
    (subject version : Text) : (client.fetch network subject version).2.length ≤ 1 := by
  rw [Registry.Client.fetch]
  split
  · exact Nat.zero_le _
  · exact Nat.le_refl _

/-- **At most one request is made for a schema**, and none if it comes from a file, if no subject is
named or if the version cannot be asked for. -/
theorem requests_readSchema (world : World) (a : ConvertOne) :
    (readSchema world a).2.length ≤ 1 ∧
      ((given a.input).isSome ∨ given a.subject = none ∨ ¬Registry.IsVersion a.version →
        (readSchema world a).2 = []) := by
  rw [readSchema]
  cases given a.registry with
  | none => cases given a.input <;> exact ⟨Nat.zero_le _, fun _ => rfl⟩
  | some base =>
    cases given a.input with
    | some path => exact ⟨Nat.zero_le _, fun _ => rfl⟩
    | none =>
      cases given a.subject with
      | none => exact ⟨Nat.zero_le _, fun _ => rfl⟩
      | some subject =>
        refine ⟨length_requests_fetch _ _ _ _, fun hnone => ?_⟩
        have hversion : ¬Registry.IsVersion a.version :=
          (hnone.resolve_left nofun).resolve_left nofun
        obtain ⟨fault, -, -, hfetch⟩ := Registry.schemaUrl_refused
          (Registry.Client.ofUrl base Registry.defaultTimeout) subject hversion
        dsimp only
        rw [hfetch]

theorem requests_runOne (world : World) (a : ConvertOne) :
    (runOne world a).requests = (readSchema world a).2 := by
  rw [runOne]
  dsimp only
  cases (readSchema world a).1 >>= convertText a.style with
  | error fault => rfl
  | ok document =>
    dsimp only
    cases (deliver world a document).1 <;> rfl

theorem run_of_command? {arguments : List Text} (h : command? arguments = some (.one a)) :
    run world arguments = runOne world a := by
  unfold command? at h
  unfold run
  split at h
  · rename_i invocation hparsed
    rw [hparsed]
    dsimp only
    split at h
    · cases h
    · rename_i hversion
      rw [if_neg hversion, h]
  · cases h

/-- **Single conversions write all or nothing.**  The library either returns the document of the file,
which is then the only change to the files, or none is wanted in a file, or it raises a fault and no
file has been touched.  The command ends with status zero or one in the same way, whatever the registry
answers, and it asks the registry at most once, and not at all if the schema comes from a file, if no
subject is named or if the version cannot be asked for. -/
theorem single_conversions_all_or_nothing :
    (∀ (system : FileSystem) (input output : Text) (preset : Json) (draft : Option Draft),
      system.Sound →
      Leaves system (if output = [] then none else some output)
        (readText system input >>= Document.ofTextWith preset draft)
        (convertFile system input output preset draft).1.toOption
        (convertFile system input output preset draft).2) ∧
    ∀ (world : World) (arguments : List Text) (a : ConvertOne), world.files.Sound →
      command? arguments = some (.one a) → Printable a →
      (((run world arguments).status = 1 ∧ Untouched world.files (run world arguments).files) ∨
        ((run world arguments).status = 0 ∧ (run world arguments).printed.IsScalar ∧
          ∃ document, Leaves world.files (given a.output)
            ((readSchema world a).1 >>= convertText a.style) (some document)
            (run world arguments).files ∧
            (given a.output = none →
              (run world arguments).printed = document ++ Text.ofString "\n"))) ∧
      (run world arguments).requests.length ≤ 1 ∧
      ((given a.input).isSome ∨ given a.subject = none ∨ ¬Registry.IsVersion a.version →
        (run world arguments).requests = []) := by
  refine ⟨fun system input output preset draft hsound =>
    convertFile_leaves hsound input output preset draft, ?_⟩
  intro world arguments a hsound hcommand hprintable
  rw [run_of_command? hcommand, requests_runOne]
  exact ⟨runOne_leaves hsound hprintable, requests_readSchema world a⟩

/-- The options of a conversion of a schema from a registry. -/
def intOptions : List OneOption :=
  [.registry "http://registry/", .subject "int", .output "a.json"]

/-- The same, of a version that there is not. -/
def versionOptions : List OneOption :=
  .version "0" :: intOptions

/-- A schema from a registry is written to a file, and nothing is asked of the registry for a version
that there is not; a schema from a file is converted without a file for the document. -/
theorem single_conversions_all_or_nothing_int :
    intWorld.files.Sound ∧
    command? (commandLineOne intOptions none) = some (.one (askedOne intOptions none)) ∧
    command? (commandLineOne versionOptions none) = some (.one (askedOne versionOptions none)) ∧
    Printable (askedOne intOptions none) ∧ Printable (askedOne versionOptions none) ∧
    (run intWorld (commandLineOne intOptions none)).status = 0 ∧
    (∃ document, Leaves intWorld.files (some "a.json") (convertText Style.default intText)
      (some document) (run intWorld (commandLineOne intOptions none)).files) ∧
    (run intWorld (commandLineOne intOptions none)).requests.length ≤ 1 ∧
    (run intWorld (commandLineOne versionOptions none)).status = 1 ∧
    (run intWorld (commandLineOne versionOptions none)).requests = [] ∧
    Leaves Files.lone none (Document.ofTextWith "strict" none intText)
      (convertFile Files.lone "s/a.avsc" [] "strict" none).1.toOption
      (convertFile Files.lone "s/a.avsc" [] "strict" none).2 := by
  have hsound : intWorld.files.Sound := Files.sound_lone
  have hcommand : ∀ options, command? (commandLineOne options none) =
      some (.one (askedOne options none)) := fun options => by
    rw [command?, parseArguments_one]
    rfl
  have hprintable : Printable (askedOne intOptions none) :=
    ⟨nofun, fun t ht => Option.some.inj ht ▸ by decide, fun t ht => Option.some.inj ht ▸ by decide⟩
  have hprintable' : Printable (askedOne versionOptions none) :=
    ⟨nofun, fun t ht => Option.some.inj ht ▸ by decide, fun t ht => Option.some.inj ht ▸ by decide⟩
  obtain ⟨hlibrary, hcommands⟩ := single_conversions_all_or_nothing
  obtain ⟨hone, hcount, -⟩ := hcommands intWorld _ _ hsound (hcommand intOptions) hprintable
  obtain ⟨hrefused, -, hnone⟩ := hcommands intWorld _ _ hsound (hcommand versionOptions) hprintable'
  -- the schema of the registry has a document, so the command does not end with status one
  obtain ⟨document, hdocument⟩ := Document.ofText_of_primitive
    (Options.pojoOptimized.withDraft .draft07) .int
  have hstatus : (run intWorld (commandLineOne intOptions none)).status = 0 := by
    have hsupplies : Supplies intWorld intText (askedOne intOptions none) :=
      .registry rfl rfl rfl rfl rfl
    have hdelivers := delivers_runOne hsupplies (by decide) hsound fun path hpath => by
      obtain rfl : Text.ofString "a.json" = path := Option.some.inj hpath
      exact ⟨_, rfl⟩
    have hconvert : convertText (askedOne intOptions none).style intText = .ok document := hdocument
    rw [hconvert] at hdelivers
    rw [run_of_command? (hcommand intOptions)]
    exact hdelivers.1
  refine ⟨hsound, hcommand _, hcommand _, hprintable, hprintable', hstatus, ?_, hcount, ?_,
    hnone (.inr (.inr (by decide))), hlibrary Files.lone "s/a.avsc" [] "strict" none hsound⟩
  · obtain ⟨hfailed, -⟩ | ⟨-, -, document, hleaves, -⟩ := hone
    · rw [hstatus] at hfailed
      cases hfailed
    · exact ⟨document, hleaves⟩
  · obtain ⟨hfailed, -⟩ | ⟨-, -, document, hleaves, -⟩ := hrefused
    · exact hfailed
    · cases hleaves.converted

end CommandLine

end AvroJsonSchema
