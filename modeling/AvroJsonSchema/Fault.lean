import AvroJsonSchema.Json.Printer
import AvroJsonSchema.Json.Reader
import AvroJsonSchema.Json.Shown
import AvroJsonSchema.Text.Utf8

/-!
# Faults

Everything that can go wrong is a cause with the values that tell it; the wording is made from the
cause in one place.

* **`SchemaFault`**: a schema text or a schema node that cannot be walked.
* **`FileProblem`**: why a path cannot be read or written.
* **`Fault`**: every cause, among them those above.
* **`Fault.message`**: the text of a fault.
-/

namespace AvroJsonSchema

/-- Why a schema cannot be walked. -/
inductive SchemaFault where
  /-- The text is no JSON text. -/
  | malformed (problem : Json.Problem) (line column : Nat)
  /-- The whole schema is a value that is no schema. -/
  | notASchema (value : Json)
  /-- A node is a value that is no schema. -/
  | unexpectedConstruct (value : Json)
  /-- The type of a node is neither a name nor a schema. -/
  | invalidType (value : Json)
  /-- The name of a named type is not a text. -/
  | nameNotText (kind : Text) (name : Json)
  /-- An attribute is missing; `place` tells where, unless it counts as false. -/
  | missingAttribute (kind wanted : Text) (place : Json)
  /-- A kind is asked of an object without a type. -/
  | untypedObject (entries : Json.Entries)
  /-- The symbols of an enum are not a list of texts. -/
  | symbolsNotTexts (enum : Text)
  /-- The fields of a record are not a list. -/
  | fieldsNotList (record : Text)
  /-- A field of a record is not an object. -/
  | fieldNotObject (field : Json) (record : Text)
  /-- A name that no type has been defined under. -/
  | undefinedName (name enclosing : Text)

/-- Why a path cannot be read or written. -/
inductive FileProblem where
  | notFound
  | exists
  | notADirectory
  | isADirectory
  | nameTooLong
deriving DecidableEq

/-- What went wrong. -/
inductive Fault where
  | schema (fault : SchemaFault)
  /-- A kind that has no counterpart among the types of JSON Schema. -/
  | notPrimitive (kind : Json)
  /-- A list or an object used as the name of a field. -/
  | unusableKey (value : Json)
  /-- A name in which no dot can be looked for. -/
  | unsearchableName (value : Json)
  /-- A namespace that is no text. -/
  | unusableNamespace (value : Json)
  /-- A name that cannot be put behind a namespace. -/
  | unqualifiableName (value : Json)
  /-- A union that has no members to go through. -/
  | uncountableUnion (value : Json)
  /-- A reference that is neither a name nor an object. -/
  | unusableReference (value : Json)
  | unknownToggle (name : Text)
  /-- A switch under the name that stands for the options themselves. -/
  | reservedToggle
  /-- A value in the place of a draft, and what is asked of it. -/
  | notADraft (value : Json) (asked : Text)
  | unknownPreset (preset : Json)
  /-- An integer of more digits than the limit. -/
  | tooManyDigits (count : Nat)
  | invalidVersion (version : Text)
  /-- A version with a digit that takes no part in a number. -/
  | unreadableVersion (version : Text)
  | registryUnreachable (base subject version : Text)
  | registryStatus (status : Int) (subject version : Text)
  | inputWithRegistry
  | subjectMissing
  /-- A source directory that is no path. -/
  | sourceNotPath
  /-- An output directory that is no path. -/
  | outputNotPath
  | file (problem : FileProblem) (path : Text)
  /-- A path that holds the code point zero. -/
  | zeroInPath
  | undecodable (fault : Utf8.DecodeFault)
  | unencodable (fault : Utf8.EncodeFault)

instance : Coe SchemaFault Fault := ⟨.schema⟩

namespace SchemaFault

/-- What each problem of a JSON text is called. -/
def problemText : Json.Problem → Text
  | .byteOrderMark => "Unexpected UTF-8 BOM (decode using utf-8-sig)"
  | .valueExpected => "Expecting value"
  | .nameExpected => "Expecting property name enclosed in double quotes"
  | .colonExpected => "Expecting ':' delimiter"
  | .commaExpected => "Expecting ',' delimiter"
  | .unterminatedText => "Unterminated string starting at"
  | .controlCharacter => "Invalid control character at"
  | .badEscape => "Invalid \\escape"
  | .badUnicodeEscape => "Invalid \\uXXXX escape"
  | .extraData => "Extra data"

/-- What is wrong. -/
def summary : SchemaFault → Text
  | .malformed problem _ _ => Text.ofString "Invalid Avro schema JSON: " ++ problemText problem
  | .notASchema value =>
    Text.ofString "Avro schema must be a string, object or array, not " ++ value.kindName
  | .unexpectedConstruct value =>
    Text.ofString "Avro schema contains unexpected construct " ++ value.shown
  | .invalidType value =>
    Text.ofString "Avro schema has an invalid 'type' attribute " ++ value.shown
  | .nameNotText kind name =>
    Text.ofString "Avro " ++ kind ++ Text.ofString " name must be a string, not " ++ name.shown
  | .missingAttribute kind wanted _ =>
    Text.ofString "Avro " ++ kind ++ Text.ofString " is missing the '" ++ wanted
      ++ Text.ofString "' attribute"
  | .untypedObject _ => "Avro schema object is missing the 'type' attribute"
  | .symbolsNotTexts _ => "Enum 'symbols' must be an array of strings"
  | .fieldsNotList _ => "Record 'fields' must be an array"
  | .fieldNotObject field _ =>
    Text.ofString "Record field must be an object, not " ++ field.shown
  | .undefinedName name _ =>
    Text.ofString "Undefined Avro type name '" ++ name ++ Text.ofString "'"

/-- How many code points of an untyped object are shown. -/
def excerptLength : Nat := 80

/-- Where it is wrong; nowhere in particular if the text is empty. -/
def place : SchemaFault → Text
  | .malformed _ line column =>
    Text.ofString "line " ++ Text.ofNat line ++ Text.ofString ", column " ++ Text.ofNat column
  | .missingAttribute _ _ place => if place.isTruthy then place.bare else []
  | .untypedObject entries => (Json.obj entries).compact.take excerptLength
  | .symbolsNotTexts enum => enum
  | .fieldsNotList record => record
  | .fieldNotObject _ record => record
  | .undefinedName _ enclosing =>
    if enclosing.isEmpty then []
    else Text.ofString "namespace '" ++ enclosing ++ Text.ofString "'"
  | _ => []

end SchemaFault

namespace Fault

/-- A text with a place in parentheses behind it, if there is one. -/
def withPlace (summary place : Text) : Text :=
  if place.isEmpty then summary
  else summary ++ Text.ofString " (context: " ++ place ++ Text.ofString ")"

/-- What a problem with a path is called. -/
def fileProblemText : FileProblem → Text
  | .notFound => "[Errno 2] No such file or directory: "
  | .exists => "[Errno 17] File exists: "
  | .notADirectory => "[Errno 20] Not a directory: "
  | .isADirectory => "[Errno 21] Is a directory: "
  | .nameTooLong => "[Errno 36] File name too long: "

/-- What is wrong with some octets. -/
def decodeProblemText : Utf8.DecodeProblem → Text
  | .invalidStart => "invalid start byte"
  | .invalidContinuation => "invalid continuation byte"
  | .unexpectedEnd => "unexpected end of data"

/-- The first and the last place of a run. -/
def span (start size : Nat) : Text :=
  Text.ofNat start ++ Text.ofString "-" ++ Text.ofNat (start + size - 1)

/-- How many code points of an unreadable version are shown, quotes included. -/
def versionExcerpt : Nat := 200

/-- The text of a fault. -/
def message : Fault → Text
  | .schema fault => withPlace fault.summary fault.place
  | .notPrimitive kind => Text.ofString "Not a primitive type: " ++ kind.bare
  | .unusableKey value =>
    Text.ofString "unhashable type: '" ++ value.kindName ++ Text.ofString "'"
  | .unsearchableName value =>
    Text.ofString "argument of type '" ++ value.kindName ++ Text.ofString "' is not iterable"
  | .unusableNamespace (.arr _) => "can only concatenate list (not \"str\") to list"
  | .unusableNamespace value =>
    Text.ofString "unsupported operand type(s) for +: '" ++ value.kindName
      ++ Text.ofString "' and 'str'"
  | .unqualifiableName value =>
    Text.ofString "can only concatenate str (not \"" ++ value.kindName
      ++ Text.ofString "\") to str"
  | .uncountableUnion value =>
    Text.ofString "'" ++ value.kindName ++ Text.ofString "' object is not iterable"
  | .unusableReference value =>
    Text.ofString "'" ++ value.kindName ++ Text.ofString "' object has no attribute 'get'"
  | .unknownToggle name =>
    Text.ofString "ConverterOptions.__init__() got an unexpected keyword argument '" ++ name
      ++ Text.ofString "'"
  | .reservedToggle => "ConverterOptions.with_overrides() got multiple values for argument 'self'"
  | .notADraft value asked =>
    Text.ofString "'" ++ value.kindName ++ Text.ofString "' object has no attribute '" ++ asked
      ++ Text.ofString "'"
  | .unknownPreset preset =>
    Text.ofString "Unknown preset '" ++ preset.bare
      ++ Text.ofString "', expected one of pojo-optimized, strict"
  | .tooManyDigits count =>
    Text.ofString "Exceeds the limit (" ++ Text.ofNat Json.Numeral.digitLimit
      ++ Text.ofString " digits) for integer string conversion: value has " ++ Text.ofNat count
      ++ Text.ofString " digits; use sys.set_int_max_str_digits() to increase the limit"
  | .invalidVersion version =>
    Text.ofString "Schema version must be a positive integer or 'latest', not '" ++ version
      ++ Text.ofString "'"
  | .unreadableVersion version =>
    Text.ofString "invalid literal for int() with base 10: "
      ++ version.quoted.take versionExcerpt
  | .registryUnreachable base subject version =>
    withPlace (Text.ofString "Failed to reach schema registry at " ++ base)
      (Text.ofString "subject '" ++ subject ++ Text.ofString "' version '" ++ version
        ++ Text.ofString "'")
  | .registryStatus status subject version =>
    Text.ofString "Schema Registry returned HTTP " ++ Text.ofInt status
      ++ Text.ofString " for subject '" ++ subject ++ Text.ofString "' version '" ++ version
      ++ Text.ofString "'"
  | .inputWithRegistry => "An input file and --registry cannot be combined."
  | .subjectMissing => "--subject is required with --registry."
  | .sourceNotPath => "stat: path should be string, bytes, os.PathLike or integer, not list"
  | .outputNotPath => "expected str, bytes or os.PathLike object, not list"
  | .file problem path => fileProblemText problem ++ path.quoted
  | .zeroInPath => "embedded null byte"
  | .undecodable fault =>
    let shown :=
      if fault.size = 1 then
        Text.ofString "byte 0x" ++ Text.hex 2 fault.first.toNat ++ Text.ofString " in position "
          ++ Text.ofNat fault.start
      else Text.ofString "bytes in position " ++ span fault.start fault.size
    Text.ofString "'utf-8' codec can't decode " ++ shown ++ Text.ofString ": "
      ++ decodeProblemText fault.problem
  | .unencodable fault =>
    let shown :=
      if fault.size = 1 then
        Text.ofString "character '" ++ Text.numbered fault.first
          ++ Text.ofString "' in position " ++ Text.ofNat fault.start
      else Text.ofString "characters in position " ++ span fault.start fault.size
    Text.ofString "'utf-8' codec can't encode " ++ shown
      ++ Text.ofString ": surrogates not allowed"

end Fault

end AvroJsonSchema
