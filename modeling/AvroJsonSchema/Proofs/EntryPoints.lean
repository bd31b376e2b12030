import AvroJsonSchema.Proofs.CommandLines
import AvroJsonSchema.Proofs.Encoding
import AvroJsonSchema.Proofs.LineEnds
import AvroJsonSchema.Proofs.Mirroring

/-!
# All ways to a document

A schema text comes to a conversion as it is, or from a file, from standard input, as the answer of a
registry or below a directory; its document is returned, printed or written to a file.  The options
are resolved in different places, and some of the ways unify the line ends and some do not, but the
document is the same one or there is none.

* **`Document.ofTextWith_unifyLineEnds`**: line ends make no difference to a document.
* **`Files.Holds`**, **`Files.Writable`**: a document that has been written is in its file.
* **`CommandLine.Outcome.Delivers`**: what a command does with a document.
* **`Files.Setting.convertDirectory_at`**: what becomes of one of the schema files of a directory.
* **`CommandLine.entry_points_agree`**: all ways lead to the same document.
-/

namespace AvroJsonSchema

/-! ### Documents of schema texts -/

namespace Document

theorem toOption_ofText (setup : Setup) (t : Text) : (ofText setup t).toOption =
    (Schema.parse t).toOption.bind fun schema => (ofSchema setup schema).toOption.map Json.pretty := by
  rw [ofText]
  cases Schema.parse t with
  | error fault => rfl
  | ok schema =>
    simp only [bind, Except.bind, Except.toOption, Option.bind_some]
    cases ofSchema setup schema <;> rfl

theorem ofText_unifyLineEnds (setup : Setup) (t : Text) :
    (ofText setup t.unifyLineEnds).toOption = (ofText setup t).toOption := by
  rw [toOption_ofText, toOption_ofText, Schema.parse_unifyLineEnds]

theorem ofTextWith_of_resolve {preset : Json} {draft : Option Draft} {options : Options}
    (h : Options.resolve preset draft = .ok options) (t : Text) :
    ofTextWith preset draft t = ofText options.setup t := by
  rw [ofTextWith, h]
  rfl

/-- A text and the unified one have one document, or neither has one. -/
theorem ofTextWith_unifyLineEnds (preset : Json) (draft : Option Draft) (t : Text) :
    (ofTextWith preset draft t.unifyLineEnds).toOption = (ofTextWith preset draft t).toOption := by
  cases h : Options.resolve preset draft with
  | error fault =>
    rw [ofTextWith, ofTextWith, h]
    rfl
  | ok options =>
    rw [ofTextWith_of_resolve h, ofTextWith_of_resolve h, ofText_unifyLineEnds]

theorem isAscii_ofTextWith {preset : Json} {draft : Option Draft} {t document : Text}
    (h : ofTextWith preset draft t = .ok document) : document.IsAscii := by
  cases hoptions : Options.resolve preset draft with
  | error fault =>
    rw [ofTextWith, hoptions] at h
    cases h
  | ok options => exact isAscii_ofText (ofTextWith_of_resolve hoptions t ▸ h)

end Document

theorem eq_ok_of_toOption {ε α : Type} {x : Except ε α} {a : α} (h : x.toOption = some a) :
    x = .ok a := by
  cases x with
  | error e => cases h
  | ok b => exact congrArg Except.ok (Option.some.inj h)

/-! ### Files -/

namespace Files

open FileSystem

variable {system after : FileSystem} {path document : Text}

/-- The octets of a file are read as a document. -/
def Holds (system : FileSystem) (path document : Text) : Prop :=
  ∃ octets, system.readFile path = .ok octets ∧ Utf8.decode octets = .ok document

/-- A file can be written at a path. -/
def Writable (system : FileSystem) (path : Text) : Prop :=
  ∃ place, atPath path (system.writePlace path) = .ok place

/-- A document can be written where it is wanted, with the directories above it, or is not wanted in
a file. -/
def Deliverable (system : FileSystem) (output : Text) : Prop :=
  ∀ document, ∃ after, writeOutput system output document = (.ok (), after)

theorem endsWithSlash_of_writePlace {place : List Text} (h : system.writePlace path = .ok place) :
    Path.endsWithSlash path = false := by
  obtain ⟨parent, -, h⟩ := bind_eq_ok_iff.1 h
  split at h
  · cases h
  · rename_i hends
    exact Bool.eq_false_iff.2 hends

/-- What has been written to a file is read from it. -/
theorem readFile_of_writeFile (hsound : system.Sound) {bytes : List UInt8}
    (h : system.writeFile path bytes = .ok after) : after.readFile path = .ok bytes := by
  unfold writeFile at h
  cases hplace : atPath path (system.writePlace path) with
  | error fault =>
    rw [hplace] at h
    cases h
  | ok place =>
    rw [hplace] at h
    obtain rfl := Except.ok.inj h
    obtain ⟨hcheck, hwrite⟩ := eq_ok_of_atPath hplace
    obtain ⟨hreaches, rfl, hfree⟩ := reaches_of_writePlace hcheck hwrite
    have hkeeps : Keeps (fun _ => False) system (system.put (system.placeOf path) (.file bytes)) :=
      hreaches.keeps_put hsound (FileTree.isLeaf_file bytes) (.file bytes) hfree nofun
    obtain ⟨-, hlook⟩ := hreaches.put hsound (FileTree.isLeaf_file bytes) (.file bytes) hfree
    refine (hkeeps.reaches hreaches).readFile (endsWithSlash_of_writePlace hwrite) ?_
    rw [(placeOf_congr hkeeps.directory_eq path).1, hlook, if_pos rfl]
    rfl

theorem readFile_of_writeText (hsound : system.Sound)
    (h : writeText system path document = (.ok (), after)) :
    after.readFile path = .ok (document.flatMap Utf8.encodePoint) := by
  unfold writeText at h
  split at h
  · rename_i written hwrite
    obtain ⟨-, rfl⟩ := Prod.mk.inj h
    exact readFile_of_writeFile hsound hwrite
  · cases h

theorem holds_of_writeText (hsound : system.Sound) (hdocument : document.IsAscii)
    (h : writeText system path document = (.ok (), after)) : Holds after path document :=
  ⟨_, readFile_of_writeText hsound h, Utf8.decode_flatMap hdocument.isScalar⟩

theorem Writable.writeText (h : Writable system path) (document : Text) :
    ∃ after, writeText system path document = (.ok (), after) := by
  obtain ⟨place, hplace⟩ := h
  refine ⟨system.put place (.file (document.flatMap Utf8.encodePoint)), ?_⟩
  rw [Files.writeText, writeFile, hplace]
  rfl

/-- A document that has been written where it is wanted has its octets there. -/
theorem readFile_of_writeOutput (hsound : system.Sound) (hne : path ≠ [])
    (h : writeOutput system path document = (.ok (), after)) :
    after.readFile path = .ok (document.flatMap Utf8.encodePoint) := by
  have hempty : path.isEmpty = false := by simpa using hne
  rw [writeOutput, hempty] at h
  simp only [Bool.false_eq_true, if_false] at h
  split at h
  · exact readFile_of_writeText hsound h
  · rw [writeBelow] at h
    split at h
    · rename_i made hmade
      have hkeeps := keeps_makeDirectories (P := fun _ => False) hsound (Path.dirname path)
      rw [hmade] at hkeeps
      exact readFile_of_writeText hkeeps.sound h
    · cases h

/-- A document that has been written where it is wanted is there. -/
theorem holds_of_writeOutput (hsound : system.Sound) (hdocument : document.IsAscii) (hne : path ≠ [])
    (h : writeOutput system path document = (.ok (), after)) : Holds after path document :=
  ⟨_, readFile_of_writeOutput hsound hne h, Utf8.decode_flatMap hdocument.isScalar⟩

theorem decodeText_encode {t : Text} {octets : List UInt8} (ht : t.IsScalar)
    (h : Utf8.encode t = .ok octets) : decodeText octets = .ok t.unifyLineEnds := by
  rw [Utf8.encode_of_isScalar ht] at h
  cases h
  rw [decodeText, Utf8.decode_flatMap ht]

/-- **A schema file is converted to the document of its text**, which is written where it is
wanted. -/
theorem convertFile_agrees {t : Text} {octets : List UInt8} (ht : t.IsScalar)
    (hoctets : Utf8.encode t = .ok octets) {input output : Text} (hsound : system.Sound)
    (hread : system.readFile input = .ok octets) (hout : Deliverable system output) (preset : Json)
    (draft : Option Draft) :
    (convertFile system input output preset draft).1.toOption =
        (Document.ofTextWith preset draft t).toOption ∧
      ∀ document, Document.ofTextWith preset draft t = .ok document → output ≠ [] →
        Holds (convertFile system input output preset draft).2 output document := by
  have htext : (readText system input >>= Document.ofTextWith preset draft) =
      Document.ofTextWith preset draft t.unifyLineEnds := by
    rw [readText, hread]
    show (decodeText octets >>= _) = _
    rw [decodeText_encode ht hoctets]
    rfl
  have hsame := Document.ofTextWith_unifyLineEnds preset draft t
  rw [convertFile, htext, ← hsame]
  cases hdocument : Document.ofTextWith preset draft t.unifyLineEnds with
  | error fault =>
    rw [hdocument] at hsame
    refine ⟨rfl, fun document hok => ?_⟩
    rw [hok] at hsame
    cases hsame
  | ok document =>
    obtain ⟨after, hafter⟩ := hout document
    rw [hdocument] at hsame
    dsimp only
    rw [hafter]
    refine ⟨rfl, fun document' hok hne => ?_⟩
    rw [hok] at hsame
    obtain rfl := Option.some.inj hsame
    exact holds_of_writeOutput hsound (Document.isAscii_ofTextWith hok) hne hafter

/-- **One of the schema files of a directory of which all others can be converted**: its fault is
that of the conversion, its document is written. -/
theorem Setting.convertDirectory_at {source output : Text} {directory : FileTree}
    (h : Setting system source output directory) {preset : Json} {draft : Option Draft}
    {options : Options} (hoptions : Options.resolve preset draft = .ok options)
    {before rest : List (List Text × List UInt8)} {file : List Text × List UInt8}
    (hfiles : schemaFiles directory = before ++ file :: rest)
    (hothers : ∀ other ∈ before ++ rest, ∃ document, convertOctets options other.2 = .ok document) :
    (∀ fault, convertOctets options file.2 = .error fault →
      (convertDirectory system source output preset draft).1 = .error fault) ∧
    ∀ document, convertOctets options file.2 = .ok document →
      ∃ after, convertDirectory system source output preset draft =
          (.ok (schemaFiles directory).length, after) ∧
        after.readFile (documentOf output file.1) = .ok (document.flatMap Utf8.encodePoint) := by
  have hmem : ∀ other ∈ before ++ file :: rest, other ∈ schemaFiles directory :=
    fun other hother => hfiles ▸ hother
  have hdistinct := nodup_schemaFiles h.proper
  rw [hfiles] at hdistinct
  refine ⟨fun fault hfault => ?_, fun document hdocument => ?_⟩
  · rw [List.map_append] at hdistinct
    obtain ⟨now, hnow, hready, -⟩ := h.ready.run h
      (fun other hother => hmem other (List.mem_append_left _ hother))
      (List.nodup_append.1 hdistinct).1
      fun other hother => hothers other (List.mem_append_left _ hother)
    have hstep := (hready.step h (hmem file (List.mem_append_right _ List.mem_cons_self)) options).1
      fault hfault
    rw [h.convertDirectory_eq hoptions, convertFound, hfiles, List.map_append, inTurn_append]
    show (andThen (convertFound options source output before system) _).1 = _
    rw [hnow, List.map_cons, andThen, inTurn, hstep]
    rfl
  · have hall : ∀ other ∈ before ++ file :: rest,
        ∃ document, convertOctets options other.2 = .ok document := by
      intro other hother
      rcases List.mem_append.1 hother with hother | hother
      · exact hothers other (List.mem_append_left _ hother)
      · rcases List.mem_cons.1 hother with rfl | hother
        · exact ⟨document, hdocument⟩
        · exact hothers other (List.mem_append_right _ hother)
    obtain ⟨after, hafter, -, hmirrored⟩ := h.ready.run h hmem hdistinct hall
    obtain ⟨document', hdocument', -, hread⟩ := hmirrored.written file
      (List.mem_append_right _ List.mem_cons_self)
    obtain rfl := Except.ok.inj (hdocument.symm.trans hdocument')
    refine ⟨after, ?_, hread⟩
    rw [h.convertDirectory_eq hoptions, hfiles, hafter]

end Files

/-! ### Commands -/

namespace CommandLine

/-- A schema text reaches the conversion of one schema: from a file that holds its octets, from
standard input, or as the body of an answer of a registry. -/
inductive Supplies (world : World) (t : Text) (arguments : ConvertOne) : Prop where
  | file {path : Text} {octets : List UInt8} : given arguments.registry = none →
      given arguments.input = some path → Utf8.encode t = .ok octets →
      world.files.readFile path = .ok octets → Supplies world t arguments
  | input : given arguments.registry = none → given arguments.input = none →
      world.input = .ok t → Supplies world t arguments
  | registry {base subject address : Text} : given arguments.registry = some base →
      given arguments.input = none → given arguments.subject = some subject →
      (Registry.Client.ofUrl base Registry.defaultTimeout).schemaUrl subject arguments.version =
        .ok address →
      world.network address = some ⟨200, t⟩ → Supplies world t arguments

/-- What a command does with a document, if there is one: it prints it with a line end or writes it
to a file; without one it ends with status one. -/
def Outcome.Delivers (outcome : Outcome) (output : Option Text) : Option Text → Prop
  | none => outcome.status = 1
  | some document => outcome.status = 0 ∧
    match output with
    | none => outcome.printed = document ++ Text.ofString "\n"
    | some path => Files.Holds outcome.files path document

variable {world : World} {t : Text} {a : ConvertOne}

/-- The text that is converted is the schema text or the unified one. -/
theorem Supplies.readSchema (h : Supplies world t a) (ht : t.IsScalar) :
    (readSchema world a).1 = .ok t ∨ (readSchema world a).1 = .ok t.unifyLineEnds := by
  unfold CommandLine.readSchema
  cases h with
  | file hregistry hinput hoctets hread =>
    rw [hregistry, hinput]
    refine .inr ?_
    dsimp only
    rw [Files.readText, hread]
    exact Files.decodeText_encode ht hoctets
  | input hregistry hinput htext =>
    rw [hregistry, hinput, htext]
    exact .inr rfl
  | registry hregistry hinput hsubject haddress hanswer =>
    rw [hregistry, hinput]
    refine .inl ?_
    dsimp only
    rw [hsubject]
    dsimp only
    rw [Registry.Client.fetch, haddress]
    dsimp only
    rw [hanswer]
    rfl

/-- A draft is chosen by a text in the argument that carries it as by the text itself: what carries
no value names no draft. -/
theorem ofName_carriedValue (d : Text) :
    Draft.ofName (.str (Grammar.carriedValue d).text) = Draft.ofName (.str d) := by
  unfold Grammar.carriedValue
  split
  · rename_i h
    subst h
    decide
  · rfl

theorem resolve_style (style : Style) (draft : Option Draft) :
    ∃ options, Options.resolve style.preset draft = .ok options := by
  obtain ⟨strict, d⟩ := style
  cases strict <;> exact ⟨_, rfl⟩

/-- A document is delivered where it can be. -/
theorem delivers_runOne (hsupplies : Supplies world t a) (ht : t.IsScalar)
    (hsound : world.files.Sound)
    (hout : ∀ path, given a.output = some path → Files.Writable world.files path) :
    (runOne world a).Delivers (given a.output) (convertText a.style t).toOption := by
  have hsame : ∃ s, (CommandLine.readSchema world a).1 = .ok s ∧
      (convertText a.style s).toOption = (convertText a.style t).toOption := by
    rcases hsupplies.readSchema ht with h | h
    · exact ⟨t, h, rfl⟩
    · exact ⟨t.unifyLineEnds, h, Document.ofTextWith_unifyLineEnds _ _ t⟩
  obtain ⟨s, hread, hs⟩ := hsame
  have hconvert : ((CommandLine.readSchema world a).1 >>= convertText a.style) =
      convertText a.style s := by
    rw [hread]
    rfl
  rw [← hs, runOne]
  dsimp only
  rw [hconvert]
  cases hdocument : convertText a.style s with
  | error fault => rfl
  | ok document =>
    dsimp only [Except.toOption]
    rw [deliver]
    cases houtput : given a.output with
    | none => exact ⟨rfl, rfl⟩
    | some path =>
      obtain ⟨after, hafter⟩ := (hout path houtput).writeText document
      dsimp only
      rw [hafter]
      exact ⟨rfl, Files.holds_of_writeText hsound (Document.isAscii_ofTextWith hdocument) hafter⟩

/-- A schema file can be converted. -/
def Convertible (preset : Json) (draft : Option Draft) (bytes : List UInt8) : Prop :=
  ∃ text document, Files.decodeText bytes = .ok text ∧
    Document.ofTextWith preset draft text = .ok document

/-- Below a directory, too, a document is delivered where it can be. -/
theorem delivers_runAll {style : Style} {octets : List UInt8} {source output : Text}
    {directory : FileTree} {before rest : List (List Text × List UInt8)} {names : List Text}
    (ht : t.IsScalar) (hoctets : Utf8.encode t = .ok octets)
    (h : Files.Setting world.files source output directory)
    (hfiles : Files.schemaFiles directory = before ++ (names, octets) :: rest)
    (hothers : ∀ other ∈ before ++ rest,
      Convertible style.preset (some style.chosenDraft) other.2) :
    (runAll world (some source) (some output) style).Delivers (some (Files.documentOf output names))
      (convertText style t).toOption := by
  obtain ⟨options, hoptions⟩ := resolve_style style (some style.chosenDraft)
  have hconvert : ∀ text, convertText style text = Document.ofText options.setup text :=
    Document.ofTextWith_of_resolve hoptions
  have hsame : (convertText style t.unifyLineEnds).toOption = (convertText style t).toOption :=
    Document.ofTextWith_unifyLineEnds _ _ t
  have hfile : Files.convertOctets options octets = convertText style t.unifyLineEnds := by
    rw [Files.convertOctets, Files.decodeText_encode ht hoctets, hconvert]
    rfl
  obtain ⟨hfault, hdocument⟩ := h.convertDirectory_at hoptions hfiles fun other hother => by
    obtain ⟨text, document, htext, hok⟩ := hothers other hother
    refine ⟨document, ?_⟩
    rw [Files.convertOctets, htext, ← hok, Document.ofTextWith_of_resolve hoptions]
    rfl
  have hbelow : convertBelow world.files (some source) (some output) style =
      Files.convertDirectory world.files source output style.preset (some style.chosenDraft) :=
    rfl
  rw [← hsame, runAll, hbelow]
  cases hok : convertText style t.unifyLineEnds with
  | error fault =>
    dsimp only
    rw [hfault fault (hfile.trans hok)]
    rfl
  | ok document =>
    obtain ⟨after, hafter, hread⟩ := hdocument document (hfile.trans hok)
    rw [hafter]
    exact ⟨rfl, _, hread, Utf8.decode_flatMap (Document.isAscii_ofTextWith hok).isScalar⟩

/-- **All ways lead to the same document.**  A text without surrogates has one document, or none, for
a preset and the name of a draft, whichever way it comes to the conversion: as it is, from a file with
its octets, by the command for one schema from a file, from standard input or from a registry, and
by the command for a directory as one of the schema files.  Where there is one it is returned,
printed with a line end or read from the file that has been written; where there is none the library
raises a fault and the commands end with status one. -/
theorem entry_points_agree (t : Text) (ht : t.IsScalar) (strict : Bool) (d : Text) :
    let preset := Style.preset ⟨strict, d⟩
    let draft := Options.draftChoice (.str d)
    let result := (Document.ofTextWith preset draft t).toOption
    ∃ octets, Utf8.encode t = .ok octets ∧
      -- a file
      (∀ (system : FileSystem) (input output : Text), system.Sound →
        system.readFile input = .ok octets → Files.Deliverable system output →
        (Files.convertFile system input output preset draft).1.toOption = result ∧
        ∀ document, result = some document → output ≠ [] →
          Files.Holds (Files.convertFile system input output preset draft).2 output document) ∧
      -- the command for one schema, however its arguments are spelled
      (∀ (world : World) (arguments : List Text) (options : List OneOption) (input : Option Text),
        parseArguments arguments = parseArguments (commandLineOne options input) →
        Shapes (options.filterMap OneOption.style?) strict d →
        Supplies world t (askedOne options input) → world.files.Sound →
        (∀ path, given (askedOne options input).output = some path →
          Files.Writable world.files path) →
        (run world arguments).Delivers (given (askedOne options input).output) result) ∧
      -- the command for a directory of which all other schema files can be converted
      ∀ (world : World) (arguments : List Text) (options : List AllOption) (source output : Text)
        (directory : FileTree) (before rest : List (List Text × List UInt8)) (names : List Text),
        parseArguments arguments = parseArguments (commandLineAll options) →
        Shapes (options.filterMap AllOption.style?) strict d →
        (askedAll options).source = some (some source) →
        (askedAll options).output = some (some output) →
        Files.Setting world.files source output directory →
        Files.schemaFiles directory = before ++ (names, octets) :: rest →
        (∀ other ∈ before ++ rest, Convertible preset draft other.2) →
        (run world arguments).Delivers (some (Files.documentOf output names)) result := by
  intro preset draft result
  have hoctets := Utf8.encode_of_isScalar ht
  -- the style that the arguments ask for chooses the same draft, also where they carry no value
  let style : Style := ⟨strict, (Grammar.carriedValue d).text⟩
  have hdraft : some style.chosenDraft = draft := congrArg some (ofName_carriedValue d)
  have hresult : (convertText style t).toOption = result := by
    rw [convertText, hdraft]
    rfl
  refine ⟨_, hoctets, ?_, ?_, ?_⟩
  · intro system input output hsound hread hout
    obtain ⟨hsame, hholds⟩ := Files.convertFile_agrees ht hoctets hsound hread hout preset draft
    exact ⟨hsame, fun document hok => hholds document (eq_ok_of_toOption hok)⟩
  · intro world arguments options input harguments hshapes hsupplies hsound hout
    have hstyle : (askedOne options input).style = style :=
      (style_askedOne options input).trans hshapes.foldl_apply
    have hrun : run world arguments = runOne world (askedOne options input) := by
      rw [run, harguments, parseArguments_one]
      rfl
    rw [hrun, ← hresult, ← hstyle]
    exact delivers_runOne hsupplies ht hsound hout
  · intro world arguments options source output directory before rest names harguments hshapes hsource
      houtput hsetting hfiles hothers
    have hstyle : (askedAll options).style = style :=
      (AllOption.style_foldl_apply options ConvertAll.default).trans hshapes.foldl_apply
    have hcommand : (askedAll options).command? = some (.all (some source) (some output) style) := by
      rw [ConvertAll.command?, hsource, houtput, hstyle]
      rfl
    have hrun : run world arguments = runAll world (some source) (some output) style := by
      rw [run, harguments, parseArguments_all, hcommand]
      rfl
    rw [hrun, ← hresult]
    exact delivers_runAll ht hoctets hsetting hfiles (hdraft ▸ hothers)

/-- A text that a file, standard input and a registry all have. -/
def intText : Text := "\"int\""

/-- A world in which a text is everywhere. -/
def intWorld : World where
  files := Files.lone
  input := .ok intText
  network := fun address =>
    if address = "http://registry/subjects/int/versions/latest/schema" then some ⟨200, intText⟩
    else none

theorem setting_lone : Files.Setting Files.lone "s" "o" Files.loneSource where
  sound := Files.sound_lone
  source_eq := rfl
  output_ne := by decide
  clear := Files.clear_lone (by decide) (by decide)
  direct := by
    constructor
    · rw [Files.schemaFiles_loneSource]
      decide
    · rw [Files.schemaFiles_loneSource]
      decide

theorem entry_points_agree_int :
    let style := [StyleOption.draft "draft-2020-12", .strict]
    ∃ document, Document.ofTextWith "strict" (some .draft202012) intText = .ok document
      ∧ (Files.convertFile Files.lone "s/a.avsc" [] "strict" (some .draft202012)).1 = .ok document
      ∧ (run intWorld (commandLineOne (style.map .style) (some "s/a.avsc"))).Delivers none
          (some document)
      ∧ (run intWorld (commandLineOne (.output "a.json" :: style.map .style) none)).Delivers
          (some "a.json") (some document)
      ∧ (run intWorld (commandLineOne
          (.registry "http://registry/" :: .subject "int" :: style.map .style) none)).Delivers none
          (some document)
      ∧ (run intWorld (commandLineAll (.source "s" :: .output "o" :: style.map .style))).Delivers
          (some "o/a.json") (some document) := by
  intro style
  obtain ⟨document, hint⟩ :=
    Document.ofText_of_primitive (Options.strict.withDraft .draft202012) .int
  have hdocument : Document.ofTextWith "strict" (some .draft202012) intText = .ok document := hint
  obtain ⟨octets, hoctets, hfile, hone, hall⟩ :=
    entry_points_agree intText (by decide) true "draft-2020-12"
  obtain rfl : Files.intOctets = octets :=
    Except.ok.inj ((Utf8.encode_of_isScalar (by decide)).symm.trans hoctets)
  have hresult : (Document.ofTextWith (Style.preset ⟨true, "draft-2020-12"⟩)
      (Options.draftChoice (.str "draft-2020-12")) intText).toOption = some document := by
    show (Document.ofTextWith "strict" (some .draft202012) intText).toOption = _
    rw [hdocument]
    rfl
  have hshapes : Shapes style true "draft-2020-12" := ⟨by decide, by decide⟩
  rw [hresult] at hfile hone hall
  refine ⟨document, hdocument, ?_, ?_, ?_, ?_, ?_⟩
  · obtain ⟨hsame, -⟩ := hfile Files.lone "s/a.avsc" [] Files.sound_lone rfl fun _ => ⟨_, rfl⟩
    exact eq_ok_of_toOption hsame
  · exact hone intWorld _ (style.map .style) (some "s/a.avsc") rfl hshapes
      (.file rfl rfl hoctets rfl) Files.sound_lone nofun
  · refine hone intWorld _ (.output "a.json" :: style.map .style) none rfl hshapes
      (.input rfl rfl rfl) Files.sound_lone fun path hpath => ?_
    obtain rfl : Text.ofString "a.json" = path := Option.some.inj hpath
    exact ⟨_, rfl⟩
  · exact hone intWorld _ (.registry "http://registry/" :: .subject "int" :: style.map .style) none
      rfl hshapes (.registry rfl rfl rfl rfl rfl) Files.sound_lone nofun
  · exact hall intWorld _ (.source "s" :: .output "o" :: style.map .style) "s" "o" Files.loneSource
      [] [] [Text.ofString "a.avsc"] rfl hshapes rfl rfl setting_lone Files.schemaFiles_loneSource
      nofun

end CommandLine

end AvroJsonSchema
