import AvroJsonSchema.CommandLine.Run

/-!
# What an invocation looks at

An invocation reads standard input for its schema only if that comes from nowhere else, and it
looks only at what stands where its arguments lead.  For a conversion of a directory standard input
may list the files below the directory, one path on each line.

* **`command?`**: the command that is carried out for some arguments.
* **`InputUse`**, **`Command.inputUse`**: what standard input is read for.
* **`Command.paths`**, **`listedPaths`**: the paths that are looked at.
* **`Command.documentPaths`**: the paths that the documents of a directory go to.
-/

namespace AvroJsonSchema

namespace CommandLine

/-- What standard input is read for. -/
inductive InputUse where
  | nothing
  /-- The text of the schema. -/
  | schema
  /-- The paths of the files below a directory. -/
  | listing
deriving DecidableEq

/-- The command that is carried out for some arguments, if there is one. -/
def command? (arguments : List Text) : Option Command :=
  match parseArguments arguments with
  | .values invocation true => if invocation.version then none else invocation.command
  | _ => none

namespace Command

/-- What standard input is read for. -/
def inputUse : Command → InputUse
  | .one arguments =>
    if (given arguments.registry).isSome || (given arguments.input).isSome then .nothing
    else .schema
  | .all _ _ _ => .listing

/-- The paths that are looked at, besides those of a listing. -/
def paths : Command → List Text
  | .one arguments => (given arguments.input).toList ++ (given arguments.output).toList
  | .all source output _ => source.toList ++ output.toList

/-- The paths of the documents of a directory. -/
def documentPaths (system : FileSystem) : Command → List Text
  | .one _ => []
  | .all (some source) (some output) _ => Files.documentPaths system source output
  | .all _ _ _ => []

end Command

/-- The paths in a listing. -/
def listedPaths (listing : Text) : List Text :=
  (listing.splitAt CodePoint.lineFeed).filter (!·.isEmpty)

end CommandLine

end AvroJsonSchema
