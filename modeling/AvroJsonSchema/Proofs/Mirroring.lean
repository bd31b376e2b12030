import AvroJsonSchema.Proofs.Kinds
import AvroJsonSchema.Proofs.Visits

/-!
# The documents of a directory

The documents of the schema files below a source go to the same places below an output, and a fault
leaves those that were finished before it.  The output may be the source or lie within it: documents
are no schema files, so they are not visited and no schema file is lost to them.

* **`Document.ofText_of_primitive`**: the name of a primitive type is a schema that can be converted.
* **`Files.Clear`**, **`Files.Direct`**: nothing is in the way of the documents, and their paths can be
  taken.
* **`Files.Ready`**: a moment of a conversion.  **`Files.Ready.step`**, **`Files.Ready.run`**: one
  schema file, and some of them one after the other.
* **`Files.Mirrored`**: what has become of the files when some schema files have been converted.
-/

namespace AvroJsonSchema

open AvroJsonSchema.Path FileSystem

/-! ### A schema file that holds a name -/

namespace Json

namespace Reader

/-- The mark around a text. -/
def quote : CodePoint := CodePoint.ofNat 34

/-- A code point that stands for itself between quotes. -/
def IsPlain (c : CodePoint) : Prop :=
  c.val ≠ 34 ∧ c.val ≠ 92 ∧ 32 ≤ c.val

instance (c : CodePoint) : Decidable (IsPlain c) :=
  inferInstanceAs (Decidable (_ ∧ _ ∧ _))

theorem takeText_of_plain (start : Text) {t : Text} (h : ∀ c ∈ t, IsPlain c) :
    ∃ taken, takeText start (t ++ [quote]) = .ok taken ∧ taken.value = t ∧ taken.rest = [] := by
  induction t with
  | nil =>
    rw [List.nil_append, takeText.eq_def]
    exact ⟨_, rfl, rfl, rfl⟩
  | cons c t ih =>
    obtain ⟨hquote, hbackslash, hcontrol⟩ := h c List.mem_cons_self
    obtain ⟨taken, htaken, hvalue, hrest⟩ := ih fun c' hc' => h c' (List.mem_cons_of_mem _ hc')
    rw [List.cons_append, takeText.eq_def]
    simp only [if_neg hquote, if_neg hbackslash, if_neg (Nat.not_lt.2 hcontrol), htaken]
    exact ⟨_, rfl, congrArg (c :: ·) hvalue, hrest⟩

end Reader

open Reader

/-- Plain code points between quotes are read as a text. -/
theorem read_of_plain {t : Text} (h : ∀ c ∈ t, IsPlain c) :
    read (quote :: (t ++ [quote])) = .ok (.str t) := by
  obtain ⟨taken, htaken, hvalue, hrest⟩ := takeText_of_plain (quote :: (t ++ [quote])) h
  have hwhole : whole (quote :: (t ++ [quote])) = .ok (.str t) := by
    rw [whole, value]
    show (((takeText _ _).map (Taken.lift Json.str _)) >>= _) = _
    rw [htaken]
    simp only [Except.map, bind, Except.bind, Taken.lift, hvalue, hrest]
    rfl
  rw [read, hwhole]
  rfl

end Json

/-- **The name of a primitive type is a schema that can be converted**, with any options. -/
theorem Document.ofText_of_primitive (options : Options) (p : Primitive) :
    ∃ document, ofText options.setup (Json.Reader.quote :: (p.text ++ [Json.Reader.quote])) =
      .ok document := by
  have hplain : ∀ c ∈ p.text, Json.Reader.IsPlain c := by
    cases p <;> decide
  have hparse : Schema.parse (Json.Reader.quote :: (p.text ++ [Json.Reader.quote])) =
      .ok (.str p.text) := by
    rw [Schema.parse, Json.read_of_plain hplain]
  obtain ⟨root, hroot⟩ := Conversion.outcome_of_primitive_kind options.setup [] Context.empty
    (Schema.kind_of_plain (j := .str p.text) trivial) (Primitive.ofText?_text p)
  have hrun : run options.setup (.str p.text) = (.ok root, Context.empty) := hroot
  rw [ofText, hparse]
  simp only [bind, Except.bind, ofSchema_eq, hrun]
  exact ⟨_, rfl⟩

namespace Files

/-! ### The place of a document -/

/-- The names of a schema file end with the ending of schema files. -/
theorem exists_of_isSchemaPlace {names : List Text} (h : isSchemaPlace names) :
    ∃ directories stem, names = directories ++ [stem ++ schemaEnding] := by
  rw [isSchemaPlace, Option.any_eq_true] at h
  obtain ⟨name, hlast, hname⟩ := h
  obtain ⟨directories, rfl⟩ := List.getLast?_eq_some_iff.1 hlast
  obtain ⟨stem, rfl⟩ := isSchemaName_iff.1 hname
  exact ⟨directories, stem, rfl⟩

theorem documentPath_pathText (directories : List Text) (stem : Text) :
    documentPath (FileTree.pathText (directories ++ [stem ++ schemaEnding])) =
      FileTree.pathText (directories ++ [stem ++ documentEnding]) := by
  rw [documentPath, FileTree.pathText, FileTree.pathText, Text.join_concat_append,
    Text.join_concat_append, List.length_append, Nat.add_sub_cancel, List.take_left]

/-- What a schema file is named, its document is named with another ending. -/
theorem isName_document {stem : Text} (h : IsName (stem ++ schemaEnding)) :
    IsName (stem ++ documentEnding) := by
  have hschema : ∀ c ∈ schemaEnding, c.val < 0x80 := by decide
  have hdocument : ∀ c ∈ documentEnding, c.val < 0x80 := by decide
  have hlength : 5 ≤ (stem ++ documentEnding).length := by
    rw [List.length_append]
    exact Nat.le_add_left _ _
  have hstem : nameOf stem = stem := by
    have := h.told
    rw [nameOf_append hschema] at this
    exact List.append_cancel_right this
  refine ⟨fun heq => ?_, fun hmem => ?_, fun heq => ?_, fun heq => ?_, ?_⟩
  · rw [heq] at hlength
    exact absurd hlength (by decide)
  · rcases List.mem_append.1 hmem with hmem | hmem
    · exact h.no_slash (List.mem_append_left _ hmem)
    · exact absurd hmem (by decide)
  · rw [heq] at hlength
    exact absurd hlength (by decide)
  · rw [heq] at hlength
    exact absurd hlength (by decide)
  · rw [nameOf_append hdocument, hstem]

/-- A schema file below a source, with names that stand there. -/
structure Found (directories : List Text) (stem : Text) : Prop where
  directories : ∀ name ∈ directories, IsName name
  name : IsName (stem ++ schemaEnding)

variable {directories : List Text} {stem output : Text}

theorem Found.document (h : Found directories stem) :
    ∀ name ∈ directories ++ [stem ++ documentEnding], IsName name := by
  intro name hmem
  rcases List.mem_append.1 hmem with hmem | hmem
  · exact h.directories name hmem
  · exact List.mem_singleton.1 hmem ▸ isName_document h.name

theorem Found.components (h : Found directories stem) (output : Text) :
    components (documentOf output (directories ++ [stem ++ schemaEnding])) =
      Path.components output ++ (directories ++ [stem ++ documentEnding]) := by
  rw [documentOf, documentPath_pathText, components_join (isAbsolute_pathText h.document),
    components_pathText h.document]

theorem Found.isAbsolute (h : Found directories stem) (houtput : output ≠ []) :
    isAbsolute (documentOf output (directories ++ [stem ++ schemaEnding])) =
      Path.isAbsolute output := by
  rw [documentOf, documentPath_pathText, isAbsolute_join houtput (isAbsolute_pathText h.document)]

theorem documentOf_ne_nil (output : Text) (names : List Text) : documentOf output names ≠ [] := by
  intro hnil
  have hending : documentEnding = [] := List.suffix_nil.1 (hnil ▸ suffix_documentOf output names)
  exact absurd hending (by decide)

theorem ends_documentOf (output : Text) (names : List Text) :
    endsWithSlash (documentOf output names) = false :=
  (endsWithSlash_of_suffix (suffix_documentOf output names) (by decide)).trans (by decide)

theorem Found.dirname_ne_nil (h : Found directories stem) (houtput : output ≠ []) :
    dirname (documentOf output (directories ++ [stem ++ schemaEnding])) ≠ [] := by
  intro hnil
  refine no_slash_of_dirname hnil ?_
  rw [documentOf, documentPath_pathText]
  exact slash_mem_join houtput (isAbsolute_pathText h.document)

variable {system : FileSystem}

theorem Found.start (h : Found directories stem) (houtput : output ≠ []) :
    system.start (documentOf output (directories ++ [stem ++ schemaEnding])) =
      system.start output := by
  rw [FileSystem.start, FileSystem.start, h.isAbsolute houtput]

/-- A document goes to the place of its schema file, below the output and with another ending. -/
theorem Found.placeOf (h : Found directories stem) (houtput : output ≠ []) :
    system.placeOf (documentOf output (directories ++ [stem ++ schemaEnding])) =
      system.placeOf output ++ (directories ++ [stem ++ documentEnding]) := by
  rw [FileSystem.placeOf, h.components, h.start houtput, lead_append, lead_of_isName h.document]
  rfl

theorem Found.places_eq (system : FileSystem) (h : Found directories stem) (houtput : output ≠ []) :
    (system.places (documentOf output (directories ++ [stem ++ schemaEnding]))).dropLast =
      system.places (dirname (documentOf output (directories ++ [stem ++ schemaEnding]))) := by
  rw [places_of_parts system (parts_split _) (h.dirname_ne_nil houtput)
    (last_ne_nil (documentOf_ne_nil output _) (ends_documentOf output _)), List.dropLast_concat]
  rfl

/-- On its way a document passes through the places of the output and then through directories like
those of its schema file. -/
theorem Found.passed (h : Found directories stem) (houtput : output ≠ []) {passed : List Text}
    (hmem : passed ∈
      (system.places (documentOf output (directories ++ [stem ++ schemaEnding]))).dropLast) :
    passed ∈ system.places output ∨
      ∃ front back, directories = front ++ back ∧ passed = system.placeOf output ++ front := by
  rw [FileSystem.places, h.components, h.start houtput] at hmem
  rcases mem_dropLast_places_append hmem with hmem | hmem
  · exact .inl (List.dropLast_subset _ hmem)
  · obtain ⟨front, back, hback, heq, rfl⟩ := exists_of_mem_dropLast_places h.document hmem
    refine .inr ⟨front, back.dropLast, ?_, rfl⟩
    rw [← List.dropLast_append_of_ne_nil hback, ← heq, List.dropLast_concat]

/-! ### What a conversion needs -/

/-- Nothing is in the way of the documents of a directory: none runs through a file or ends at a
directory, and no directory is named like a document. -/
structure Clear (system : FileSystem) (output : Text) (directory : FileTree) : Prop where
  no_file : ∀ file ∈ schemaFiles directory,
    ∀ place ∈ (system.places (documentOf output file.1)).dropLast, ∀ bytes,
      system.look place ≠ some (.file bytes)
  no_directory : ∀ file ∈ schemaFiles directory,
    system.look (system.placeOf (documentOf output file.1)) ≠ some .directory
  no_document : ∀ names name, directory.look (names ++ [name]) = some .directory →
    ¬documentEnding <:+ name

/-- The paths of the schema files and of their documents can be taken by the system, and the output
does not lead through the place of a document. -/
structure Direct (system : FileSystem) (source output : Text) (directory : FileTree) : Prop where
  nameable : ∀ file ∈ schemaFiles directory,
    IsNameable (below source file.1) ∧ IsNameable (documentOf output file.1)
  no_detour : ∀ file ∈ schemaFiles directory,
    system.placeOf (documentOf output file.1) ∉ system.places output

/-- A conversion of a directory, with what it needs. -/
structure Setting (system : FileSystem) (source output : Text) (directory : FileTree) : Prop where
  sound : system.Sound
  source_eq : system.directory? source = some directory
  output_ne : output ≠ []
  clear : Clear system output directory
  direct : Direct system source output directory

section Setting

variable {source : Text} {directory : FileTree} {file other : List Text × List UInt8}

theorem Setting.proper (h : Setting system source output directory) : directory.Proper := by
  obtain ⟨-, entries, rfl, hfind⟩ := directory?_eq_some_iff.1 h.source_eq
  exact (h.sound.proper.find? hfind).1

theorem Setting.found (h : Setting system source output directory)
    (hfile : file ∈ schemaFiles directory) :
    ∃ directories stem, file.1 = directories ++ [stem ++ schemaEnding] ∧ Found directories stem := by
  obtain ⟨hlook, hschema⟩ := (mem_schemaFiles_iff h.proper).1 hfile
  obtain ⟨directories, stem, heq⟩ := exists_of_isSchemaPlace hschema
  have hnames := h.proper.names_of_look (ne_none_of_eq hlook)
  rw [heq] at hnames
  exact ⟨directories, stem, heq, fun name hmem => hnames name (List.mem_append_left _ hmem),
    hnames _ (List.mem_append_right _ List.mem_cons_self)⟩

/-- No document is in the way of another one. -/
theorem Setting.apart (h : Setting system source output directory)
    (hfile : file ∈ schemaFiles directory) (hother : other ∈ schemaFiles directory) :
    system.placeOf (documentOf output file.1) ∉
      (system.places (documentOf output other.1)).dropLast := by
  intro hmem
  obtain ⟨directories, stem, heq, hfound⟩ := h.found hfile
  obtain ⟨directories', stem', heq', hfound'⟩ := h.found hother
  have hdetour := h.direct.no_detour file hfile
  rw [heq'] at hmem
  rcases hfound'.passed h.output_ne hmem with hmem | ⟨front, back, hdirectories, hplace⟩
  · exact hdetour hmem
  · rw [heq, hfound.placeOf h.output_ne] at hplace
    have hfront := List.append_cancel_left hplace
    -- the other schema file would stand below a directory that is named like the document
    obtain ⟨hlook, -⟩ := (mem_schemaFiles_iff h.proper).1 hother
    rw [heq', hdirectories, ← hfront, List.append_assoc] at hlook
    have hdirectory := FileTree.look_of_below (by simp) (ne_none_of_eq hlook)
    exact h.clear.no_document _ _ hdirectory (List.suffix_append _ _)

/-- Different schema files have documents at different places. -/
theorem Setting.eq_of_placeOf (h : Setting system source output directory)
    (hfile : file ∈ schemaFiles directory) (hother : other ∈ schemaFiles directory)
    (hplace : system.placeOf (documentOf output file.1) =
      system.placeOf (documentOf output other.1)) : file.1 = other.1 := by
  obtain ⟨directories, stem, heq, hfound⟩ := h.found hfile
  obtain ⟨directories', stem', heq', hfound'⟩ := h.found hother
  rw [heq, heq', hfound.placeOf h.output_ne, hfound'.placeOf h.output_ne] at hplace
  obtain ⟨rfl, hlast⟩ := List.append_inj' (List.append_cancel_left hplace) rfl
  rw [heq, heq', List.append_cancel_right (List.singleton_inj.1 hlast)]

end Setting

/-! ### One schema file -/

/-- The document of a schema file with some octets. -/
def convertOctets (options : Options) (bytes : List UInt8) : Except Fault Text :=
  decodeText bytes >>= Document.ofText options.setup

/-- A moment of a conversion: the schema files are as they were at its beginning, and still nothing
is in the way of the documents. -/
structure Ready (system : FileSystem) (output : Text) (directory : FileTree) (now : FileSystem) :
    Prop where
  keeps : KeepsSchemas system now
  no_file : ∀ file ∈ schemaFiles directory,
    ∀ place ∈ (system.places (documentOf output file.1)).dropLast, ∀ bytes,
      now.look place ≠ some (.file bytes)
  no_directory : ∀ file ∈ schemaFiles directory,
    now.look (system.placeOf (documentOf output file.1)) ≠ some .directory

section Step

variable {source : Text} {directory : FileTree} {file : List Text × List UInt8} {now : FileSystem}

theorem Setting.ready (h : Setting system source output directory) :
    Ready system output directory system :=
  ⟨.refl h.sound, h.clear.no_file, h.clear.no_directory⟩

/-- After a document has been written nothing is in the way of the others. -/
theorem Ready.of_writes {after : FileSystem} {bytes : List UInt8}
    (hready : Ready system output directory now) (h : Setting system source output directory)
    (hfile : file ∈ schemaFiles directory) (hkeeps : KeepsSchemas now after)
    (hwrites : Writes now after (system.places (documentOf output file.1)).dropLast
      (system.placeOf (documentOf output file.1)) bytes) :
    Ready system output directory after := by
  refine ⟨hready.keeps.trans hkeeps, fun other hother place hmem octets hlook => ?_,
    fun other hother hlook => ?_⟩
  · have hne : place ≠ system.placeOf (documentOf output file.1) := fun heq =>
      h.apart hfile hother (heq ▸ hmem)
    exact hready.no_file other hother place hmem octets ((hwrites.look_eq_file_iff hne octets).1 hlook)
  · have hapart := h.apart hother hfile
    by_cases heq : system.placeOf (documentOf output other.1) =
        system.placeOf (documentOf output file.1)
    · rw [heq, hwrites.written] at hlook
      cases hlook
    · rw [hwrites.others _ heq hapart] at hlook
      exact hready.no_directory other hother hlook

/-- A schema file is read as it was at the beginning. -/
theorem Ready.text (hready : Ready system output directory now)
    (h : Setting system source output directory) (hfile : file ∈ schemaFiles directory) :
    readText now (below source file.1) = decodeText file.2 := by
  obtain ⟨hlook, hschema⟩ := (mem_schemaFiles_iff h.proper).1 hfile
  have hnames := h.proper.names_of_look (ne_none_of_eq hlook)
  obtain ⟨hreaches, entries, rfl, hfind⟩ := directory?_eq_some_iff.1 h.source_eq
  have hplace : system.look (system.placeOf source ++ file.1) = some (.file file.2) := by
    rw [look, FileTree.look_append, hfind]
    exact hlook
  have hne := ne_nil_of_mem_schemaFiles hfile
  have hplace' := (hready.keeps.files _ file.2
    ((isSchemaPlace_append _ hne).trans hschema)).2 hplace
  have hsource := (placeOf_congr hready.keeps.directory_eq source).1
  have hreaches' := reaches_below (hready.keeps.reaches hreaches) hnames
    (by rw [hsource]; exact ne_none_of_eq hplace') (h.direct.nameable file hfile).1
  have hread := hreaches'.readFile (endsWithSlash_below hnames hne)
    (by rw [placeOf_below now hreaches.ne_nil hnames, hsource]; exact hplace')
  rw [readText, hread]
  rfl

/-- **A schema file is converted as it was at the beginning**, and its document written or its fault
raised. -/
theorem Ready.step (hready : Ready system output directory now)
    (h : Setting system source output directory) (hfile : file ∈ schemaFiles directory)
    (options : Options) :
    (∀ fault, convertOctets options file.2 = .error fault →
      convertSchema options source output file.1 now = (.error fault, now)) ∧
    ∀ document, convertOctets options file.2 = .ok document →
      ∃ after, convertSchema options source output file.1 now = (.ok (), after) ∧
        Writes now after (system.places (documentOf output file.1)).dropLast
          (system.placeOf (documentOf output file.1)) (document.flatMap Utf8.encodePoint) := by
  rw [convertOctets]
  refine ⟨fun fault hfault => ?_, fun document hdocument => ?_⟩
  · rw [convertSchema, hready.text h hfile, hfault]
  · obtain ⟨directories, stem, heq, hfound⟩ := h.found hfile
    obtain ⟨hplace, hplaces⟩ := placeOf_congr hready.keeps.directory_eq (documentOf output file.1)
    have hdirectories := hfound.places_eq now h.output_ne
    rw [← heq, hplaces] at hdirectories
    have hne : dirname (documentOf output file.1) ≠ [] := heq ▸ hfound.dirname_ne_nil h.output_ne
    have hfiles := hready.no_file file hfile
    have hfree := hready.no_directory file hfile
    have hapart := h.apart hfile hfile
    rw [hdirectories, ← hplace] at hapart
    rw [hdirectories] at hfiles ⊢
    rw [← hplace] at hfree ⊢
    obtain ⟨after, hafter, hwrites⟩ := writeBelow_spec hready.keeps.sound
      (h.direct.nameable file hfile).2 (ends_documentOf output file.1) hne hfiles hfree hapart document
    refine ⟨after, ?_, hwrites⟩
    rw [convertSchema, hready.text h hfile, hdocument]
    exact hafter

end Step

/-! ### All of them -/

/-- Some schema files have been converted: their documents are where they belong, and no other file
has changed. -/
structure Mirrored (options : Options) (output : Text) (before after : FileSystem)
    (done : List (List Text × List UInt8)) : Prop where
  keeps : KeepsSchemas before after
  written : ∀ file ∈ done, ∃ document, convertOctets options file.2 = .ok document ∧
    after.look (before.placeOf (documentOf output file.1)) =
      some (.file (document.flatMap Utf8.encodePoint)) ∧
    after.readFile (documentOf output file.1) = .ok (document.flatMap Utf8.encodePoint)
  others : ∀ place, (∀ file ∈ done, place ≠ before.placeOf (documentOf output file.1)) →
    ∀ bytes, after.look place = some (.file bytes) ↔ before.look place = some (.file bytes)

/-- The conversion of some schema files, one after the other. -/
def convertFound (options : Options) (source output : Text)
    (found : List (List Text × List UInt8)) (system : FileSystem) :
    Except Fault Nat × FileSystem :=
  inTurn (fun names s => counted (convertSchema options source output names s))
    (found.map Prod.fst) system

section Run

variable {source : Text} {directory : FileTree} {file : List Text × List UInt8}
  {done : List (List Text × List UInt8)} {now after : FileSystem} {options : Options}

/-- A document that has been written is reached by its path. -/
theorem Ready.reaches (hready : Ready system output directory now)
    (h : Setting system source output directory) (hfile : file ∈ schemaFiles directory)
    {bytes : List UInt8}
    (hwrites : Writes now after (system.places (documentOf output file.1)).dropLast
      (system.placeOf (documentOf output file.1)) bytes) :
    after.Reaches (documentOf output file.1) := by
  have hsame := hwrites.directory_eq.trans hready.keeps.directory_eq
  refine ⟨documentOf_ne_nil output _, (h.direct.nameable file hfile).2, fun place hmem => ?_⟩
  rw [(placeOf_congr hsame _).2] at hmem
  have hne : place ≠ system.placeOf (documentOf output file.1) := fun heq =>
    h.apart hfile hfile (heq ▸ hmem)
  cases hlook : now.look place with
  | none => exact hwrites.made place hmem hlook
  | some occupant =>
    cases occupant with
    | file octets => exact absurd hlook (hready.no_file file hfile place hmem octets)
    | directory => rw [hwrites.kept place hne (ne_none_of_eq hlook), hlook]

/-- **Schema files that can be converted are converted**, each to its document. -/
theorem Ready.run (hready : Ready system output directory now)
    (h : Setting system source output directory) (hdone : ∀ file ∈ done, file ∈ schemaFiles directory)
    (hdistinct : (done.map Prod.fst).Nodup)
    (hok : ∀ file ∈ done, ∃ document, convertOctets options file.2 = .ok document) :
    ∃ after, convertFound options source output done now = (.ok done.length, after) ∧
      Ready system output directory after ∧ Mirrored options output now after done := by
  induction done generalizing now with
  | nil =>
    refine ⟨now, rfl, hready, .refl hready.keeps.sound, fun file hfile => absurd hfile
      List.not_mem_nil, fun _ _ _ => Iff.rfl⟩
  | cons file done ih =>
    have hfile := hdone file List.mem_cons_self
    obtain ⟨document, hdocument⟩ := hok file List.mem_cons_self
    obtain ⟨next, hnext, hwrites⟩ := (hready.step h hfile options).2 document hdocument
    have hkeeps := keeps_convertSchema hready.keeps.sound options source output file.1
    rw [hnext] at hkeeps
    have hready' := hready.of_writes h hfile hkeeps hwrites
    rw [List.map_cons, List.nodup_cons] at hdistinct
    obtain ⟨after, hafter, hready'', hmirrored⟩ := ih hready'
      (fun other hother => hdone other (List.mem_cons_of_mem _ hother)) hdistinct.2
      fun other hother => hok other (List.mem_cons_of_mem _ hother)
    have hplace := fun path => (placeOf_congr hready.keeps.directory_eq path).1
    have hplaceNext := fun path => (placeOf_congr hready'.keeps.directory_eq path).1
    have hplaceAfter := fun path => (placeOf_congr hready''.keeps.directory_eq path).1
    -- the documents that follow go to other places
    have hlook : after.look (system.placeOf (documentOf output file.1)) =
        some (.file (document.flatMap Utf8.encodePoint)) := by
      refine (hmirrored.others _ (fun other hother heq => hdistinct.1 ?_) _).2 hwrites.written
      rw [hplaceNext] at heq
      rw [h.eq_of_placeOf hfile (hdone other (List.mem_cons_of_mem _ hother)) heq]
      exact List.mem_map_of_mem hother
    refine ⟨after, ?_, hready'', hkeeps.trans hmirrored.keeps, fun other hother => ?_,
      fun place hnot bytes => ?_⟩
    · have hstep : counted (convertSchema options source output file.1 now) = (.ok 1, next) := by
        rw [hnext]
        rfl
      show andThen (counted (convertSchema options source output file.1 now))
        (convertFound options source output done) = _
      rw [hstep, andThen]
      simp only [hafter, Except.map, List.length_cons, Nat.add_comm]
    · rcases List.mem_cons.1 hother with rfl | hother
      · refine ⟨document, hdocument, by rw [hplace]; exact hlook, ?_⟩
        exact (hmirrored.keeps.reaches (hready.reaches h hfile hwrites)).readFile
          (ends_documentOf output _) (by rw [hplaceAfter]; exact hlook)
      · obtain ⟨document', hdocument', hlook', hread'⟩ := hmirrored.written other hother
        rw [hplaceNext] at hlook'
        exact ⟨document', hdocument', by rw [hplace]; exact hlook', hread'⟩
    · refine (hmirrored.others place (fun other hother => ?_) bytes).trans
        (hwrites.look_eq_file_iff ?_ bytes)
      · rw [hplaceNext, ← hplace]
        exact hnot other (List.mem_cons_of_mem _ hother)
      · rw [← hplace]
        exact hnot file List.mem_cons_self

/-- The files that are converted are those that were there at the beginning, in their order. -/
theorem Setting.convertDirectory_eq (h : Setting system source output directory) {preset : Json}
    {draft : Option Draft} (hoptions : Options.resolve preset draft = .ok options) :
    convertDirectory system source output preset draft =
      convertFound options source output (schemaFiles directory) system := by
  rw [convertDirectory, h.source_eq, hoptions]
  exact visitSchemas_eq (fun names s hs => keeps_convertSchema hs options source output names)
    h.sound h.source_eq fun file hfile => (h.direct.nameable file hfile).1

end Run

/-- **A directory is mirrored, and a fault leaves what was finished before it.**  The schema files
that are converted are those below the source at the beginning, in the order of the walk, and no two
documents go to one place.  At each moment the documents of the files converted so far are where
they belong, no other file has changed and no schema file has; this is so at the end if all are
converted, and where the first of them cannot be converted, with its fault. -/
theorem convertDirectory_mirrors {system : FileSystem} {source output : Text} {preset : Json}
    {draft : Option Draft} {options : Options} {directory : FileTree} (hsound : system.Sound)
    (hsource : system.directory? source = some directory)
    (hoptions : Options.resolve preset draft = .ok options) (houtput : output ≠ [])
    (hclear : Clear system output directory) (hdirect : Direct system source output directory) :
    ((schemaFiles directory).map fun file => system.placeOf (documentOf output file.1)).Nodup ∧
    convertDirectory system source output preset draft =
      convertFound options source output (schemaFiles directory) system ∧
    (∀ done rest, schemaFiles directory = done ++ rest →
      (∀ file ∈ done, ∃ document, convertOctets options file.2 = .ok document) →
      ∃ after, convertFound options source output done system = (.ok done.length, after) ∧
        Mirrored options output system after done) ∧
    ((∀ file ∈ schemaFiles directory, ∃ document, convertOctets options file.2 = .ok document) →
      ∃ after, convertDirectory system source output preset draft =
          (.ok (schemaFiles directory).length, after) ∧
        Mirrored options output system after (schemaFiles directory)) ∧
    ∀ done file rest fault, schemaFiles directory = done ++ file :: rest →
      (∀ earlier ∈ done, ∃ document, convertOctets options earlier.2 = .ok document) →
      convertOctets options file.2 = .error fault →
      ∃ after, convertDirectory system source output preset draft = (.error fault, after) ∧
        Mirrored options output system after done := by
  have h : Setting system source output directory := ⟨hsound, hsource, houtput, hclear, hdirect⟩
  have hdistinct := nodup_schemaFiles h.proper
  have hmoment : ∀ done rest, schemaFiles directory = done ++ rest →
      (∀ file ∈ done, ∃ document, convertOctets options file.2 = .ok document) →
      ∃ after, convertFound options source output done system = (.ok done.length, after) ∧
        Ready system output directory after ∧ Mirrored options output system after done := by
    intro done rest hfound hok
    refine h.ready.run h (fun file hfile => hfound ▸ List.mem_append_left _ hfile) ?_ hok
    rw [hfound, List.map_append] at hdistinct
    exact (List.nodup_append.1 hdistinct).1
  have hrun := h.convertDirectory_eq hoptions
  refine ⟨?_, hrun, fun done rest hfound hok => ?_, fun hok => ?_,
    fun done file rest fault hfound hok hfault => ?_⟩
  · rw [List.Nodup, List.pairwise_map]
    exact (List.pairwise_map.1 hdistinct).imp_of_mem fun hfile hother hne hplace =>
      hne (h.eq_of_placeOf hfile hother hplace)
  · obtain ⟨after, hafter, -, hmirrored⟩ := hmoment done rest hfound hok
    exact ⟨after, hafter, hmirrored⟩
  · obtain ⟨after, hafter, -, hmirrored⟩ := hmoment _ [] (List.append_nil _).symm hok
    exact ⟨after, hrun.trans hafter, hmirrored⟩
  · obtain ⟨after, hafter, hready, hmirrored⟩ := hmoment done _ hfound hok
    have hfile : file ∈ schemaFiles directory :=
      hfound ▸ List.mem_append_right _ List.mem_cons_self
    refine ⟨after, ?_, hmirrored⟩
    have hstep := (hready.step h hfile options).1 fault hfault
    rw [hrun, convertFound, hfound, List.map_append, inTurn_append]
    show andThen (convertFound options source output done system) _ = _
    rw [hafter, List.map_cons, andThen, inTurn, hstep]
    rfl

/-- The octets of a schema. -/
def intOctets : List UInt8 :=
  (Text.ofString "\"int\"").flatMap Utf8.encodePoint

/-- A source with a schema file, and with another one in a directory that does not hold UTF-8. -/
def nestedSource : FileTree :=
  .dir [("a.avsc", .file intOctets), ("z", .dir [("b.avsc", .file [0xFF])])]

def nested : FileSystem where
  root := .dir [("s", nestedSource)]
  directory := []

theorem schemaFiles_nestedSource : schemaFiles nestedSource =
    [([Text.ofString "a.avsc"], intOctets),
      ([Text.ofString "z", Text.ofString "b.avsc"], [0xFF])] := by
  decide +kernel

theorem sound_nested : nested.Sound where
  proper := by
    refine .dir (by decide) (by decide) fun e he => ?_
    obtain rfl := List.mem_singleton.1 he
    refine .dir (by decide) (by decide) fun e he => ?_
    rcases List.mem_cons.1 he with rfl | he
    · exact .file _
    · obtain rfl := List.mem_singleton.1 he
      refine .dir (by decide) (by decide) fun e he => ?_
      obtain rfl := List.mem_singleton.1 he
      exact .file _
  here := by decide

/-- The documents may go to a directory of the source. -/
theorem clear_nested : Clear nested "s/z" nestedSource where
  no_file file hfile place hmem bytes := by
    have hall : ∀ file ∈ schemaFiles nestedSource,
        ∀ place ∈ (nested.places (documentOf "s/z" file.1)).dropLast,
          nested.look place = none ∨ nested.look place = some .directory := by
      rw [schemaFiles_nestedSource]
      decide
    rcases hall file hfile place hmem with h | h <;> rw [h] <;> exact nofun
  no_directory := by
    rw [schemaFiles_nestedSource]
    decide
  no_document names name hlook := by
    cases names with
    | nil =>
      obtain ⟨child, hchild, hlook⟩ := FileTree.exists_of_look_dir hlook
      rcases List.mem_cons.1 hchild with heq | hchild
      · cases heq
        exact absurd hlook (FileTree.look_file_ne_directory _ _)
      · cases List.mem_singleton.1 hchild
        decide
    | cons first names =>
      obtain ⟨child, hchild, hlook⟩ := FileTree.exists_of_look_dir hlook
      rcases List.mem_cons.1 hchild with heq | hchild
      · cases heq
        exact absurd hlook (FileTree.look_file_ne_directory _ _)
      · cases List.mem_singleton.1 hchild
        rcases names with _ | ⟨second, names⟩
        all_goals
          obtain ⟨child, hchild, hlook⟩ := FileTree.exists_of_look_dir hlook
          cases List.mem_singleton.1 hchild
          exact absurd hlook (FileTree.look_file_ne_directory _ _)

theorem direct_nested : Direct nested "s" "s/z" nestedSource where
  nameable := by
    rw [schemaFiles_nestedSource]
    decide
  no_detour := by
    rw [schemaFiles_nestedSource]
    decide

theorem convertOctets_intOctets :
    ∃ document, convertOctets Options.pojoOptimized intOctets = .ok document :=
  Document.ofText_of_primitive Options.pojoOptimized .int

/-- The output lies within the source, and the second of two schema files cannot be read. -/
theorem convertDirectory_mirrors_within :
    ∃ after, convertDirectory nested "s" "s/z" .null none =
        (.error (.undecodable ⟨.invalidStart, 0xFF, 0, 1⟩), after) ∧
      Mirrored Options.pojoOptimized "s/z" nested after [([Text.ofString "a.avsc"], intOctets)] := by
  have hsource : nested.directory? "s" = some nestedSource := rfl
  have hmirrors := convertDirectory_mirrors sound_nested hsource
    (show Options.resolve .null none = .ok Options.pojoOptimized from rfl) (by decide) clear_nested
    direct_nested
  refine hmirrors.2.2.2.2 _ ([Text.ofString "z", Text.ofString "b.avsc"], [0xFF]) []
    (.undecodable ⟨.invalidStart, 0xFF, 0, 1⟩) schemaFiles_nestedSource (fun file hfile => ?_) rfl
  rw [List.mem_singleton.1 hfile]
  exact convertOctets_intOctets

/-- A source with one schema file. -/
def loneSource : FileTree :=
  .dir [("a.avsc", .file intOctets)]

def lone : FileSystem where
  root := .dir [("s", loneSource)]
  directory := []

theorem schemaFiles_loneSource :
    schemaFiles loneSource = [([Text.ofString "a.avsc"], intOctets)] := by
  decide +kernel

theorem sound_lone : lone.Sound where
  proper := by
    refine .dir (by decide) (by decide) fun e he => ?_
    obtain rfl := List.mem_singleton.1 he
    refine .dir (by decide) (by decide) fun e he => ?_
    obtain rfl := List.mem_singleton.1 he
    exact .file _
  here := by decide

/-- Nothing is in the way of a document at places where nothing stands. -/
theorem clear_lone {output : Text}
    (hfree : lone.look (lone.placeOf (documentOf output [Text.ofString "a.avsc"])) = none)
    (hplaces : ∀ place ∈ (lone.places (documentOf output [Text.ofString "a.avsc"])).dropLast,
      lone.look place = none ∨ lone.look place = some .directory) :
    Clear lone output loneSource where
  no_file file hfile place hmem bytes := by
    rw [schemaFiles_loneSource, List.mem_singleton] at hfile
    subst hfile
    rcases hplaces place hmem with h | h <;> rw [h] <;> exact nofun
  no_directory file hfile := by
    rw [schemaFiles_loneSource, List.mem_singleton] at hfile
    subst hfile
    rw [hfree]
    exact nofun
  no_document names name hlook := by
    rcases names with _ | ⟨first, names⟩
    all_goals
      obtain ⟨child, hchild, hlook⟩ := FileTree.exists_of_look_dir hlook
      cases List.mem_singleton.1 hchild
      exact absurd hlook (FileTree.look_file_ne_directory _ _)

/-- The fault of the one schema file is that of the conversion. -/
theorem convertDirectory_lone {output : Text} {fault : Fault}
    (h : (convertSchema Options.pojoOptimized "s" output [Text.ofString "a.avsc"] lone).1 =
      .error fault) :
    (convertDirectory lone "s" output .null none).1 = .error fault := by
  have hvisit := visitSchemas_eq (fun names s hs =>
    keeps_convertSchema hs Options.pojoOptimized "s" output names) sound_lone
    (show lone.directory? "s" = some loneSource from rfl) fun file hfile => by
      rw [schemaFiles_loneSource, List.mem_singleton] at hfile
      rw [hfile]
      decide
  show (visitSchemas (convertSchema Options.pojoOptimized "s" output) "s" lone).1 = _
  rw [hvisit, schemaFiles_loneSource, List.map_cons, List.map_nil, inTurn_singleton, counted, h]
  rfl

/-- The path of the document leads through the place where the document would go. -/
theorem convertSchema_detour :
    (convertSchema Options.pojoOptimized "s" "a.json/.." [Text.ofString "a.avsc"] lone).1 =
      .error (.file .isADirectory "a.json/../a.json") := by
  obtain ⟨document, hdocument⟩ := convertOctets_intOctets
  have hread : readText lone (below "s" [Text.ofString "a.avsc"]) = decodeText intOctets := rfl
  rw [convertSchema, hread, ← convertOctets, hdocument]
  refine writeBelow_detour sound_lone (by decide) (by decide) (by decide)
    (fun place hmem bytes => ?_) (by decide) document
  have hall : ∀ place ∈ lone.places (dirname (documentOf "a.json/.." [Text.ofString "a.avsc"])),
      lone.look place = none ∨ lone.look place = some .directory := by
    decide
  rcases hall place hmem with h | h <;> rw [h] <;> exact nofun

/-- The code point zero is refused where the directory of the document is made. -/
theorem convertSchema_zero :
    (convertSchema Options.pojoOptimized "s" [CodePoint.ofNat 0] [Text.ofString "a.avsc"] lone).1 =
      .error .zeroInPath := by
  obtain ⟨document, hdocument⟩ := convertOctets_intOctets
  have hread : readText lone (below "s" [Text.ofString "a.avsc"]) = decodeText intOctets := rfl
  have hdirectory : dirname (documentOf [CodePoint.ofNat 0] [Text.ofString "a.avsc"]) =
      [CodePoint.ofNat 0] := by
    decide
  rw [convertSchema, hread, ← convertOctets, hdocument]
  simp only [hdirectory]
  rw [writeBelow, makeDirectories, dif_neg (by decide)]
  rfl

/-- **What the paths are asked for.**  Nothing is in the way of the documents here and every schema
file can be converted, and yet the conversion fails: the first output leads through the place of a
document, which has become a directory when the document is written, and the second one holds a code
point that no path can hold. -/
theorem convertDirectory_detour :
    lone.Sound ∧ lone.directory? "s" = some loneSource ∧
    Options.resolve .null none = .ok Options.pojoOptimized ∧
    (∀ file ∈ schemaFiles loneSource,
      ∃ document, convertOctets Options.pojoOptimized file.2 = .ok document) ∧
    Clear lone "a.json/.." loneSource ∧
    (convertDirectory lone "s" "a.json/.." .null none).1 =
      .error (.file .isADirectory "a.json/../a.json") ∧
    Clear lone [CodePoint.ofNat 0] loneSource ∧
    (convertDirectory lone "s" [CodePoint.ofNat 0] .null none).1 = .error .zeroInPath := by
  refine ⟨sound_lone, rfl, rfl, fun file hfile => ?_,
    clear_lone (by decide) (by decide), convertDirectory_lone convertSchema_detour,
    clear_lone (by decide) (by decide), convertDirectory_lone convertSchema_zero⟩
  rw [schemaFiles_loneSource, List.mem_singleton] at hfile
  rw [hfile]
  exact convertOctets_intOctets

end Files

end AvroJsonSchema
