import BinaryXml.CommandLine.Arguments
import BinaryXml.Conversion

/-!
# Plans

What a command line asks for: where to read, how to convert, and where to write.

* `Plan.of` makes a plan, and `Plan.convert` does its middle part.
-/

namespace BinaryXml

set_option autoImplicit false

/-- Where bytes come from or go to. -/
inductive Place where
  /-- The standard input or output. -/
  | standard
  | file (path : String)
deriving Repr, DecidableEq

/-- The place that a word of the command line names; a dash is the standard input or output. -/
def Place.ofWord (word : String) : Place :=
  if word = "-" then .standard else .file word

/-- What is to be done. -/
structure Plan where
  converter : Converter
  source : Place
  sink : Place

namespace Arguments

/-- The white space policy of a command line. -/
def whitespace (arguments : Arguments) : Whitespace :=
  if arguments.switches.contains .stripWhitespace then .strip else .preserve

/-- The conversion that a command line asks for. -/
def converter (arguments : Arguments) (direction : Direction) : Converter :=
  match direction with
  | .encode =>
    let defaults : EncodeOptions := {}
    let encoder : EncodeOptions := { defaults with
      language := arguments.language.getD defaults.language
      includePublicId := arguments.switches.contains .publicId
      useStringTable := arguments.switches.contains .stringTable
      whitespace := arguments.whitespace
      opaqueEncoding := arguments.opaqueEncoding.getD defaults.opaqueEncoding }
    { direction, encoder }
  | .decode =>
    let defaults : DecodeOptions := {}
    let decoder : DecodeOptions := { defaults with
      language := arguments.language.getD defaults.language
      form := if arguments.switches.contains .pretty then .pretty else .compact
      indent := arguments.indent.getD defaults.indent
      charset := arguments.charset.getD defaults.charset
      whitespace := arguments.whitespace
      opaqueEncoding := arguments.opaqueEncoding.getD defaults.opaqueEncoding }
    { direction, decoder }

end Arguments

namespace Plan

/-- The plan for a command line. Without an output, the input file is overwritten if that is asked
for, and else the standard output is written. -/
def of (arguments : Arguments) : Except Error Plan :=
  match arguments.direction, arguments.paths with
  | none, _ => .error (.usage .noSubcommand)
  | some _, [] => .error (.usage .noInput)
  | some direction, input :: outputs =>
    let inPlace := arguments.switches.contains .inPlace
    let source := Place.ofWord input
    if inPlace ∧ source = .standard then .error (.usage .inPlaceStdin)
    else
      let sink := match outputs with
        | output :: _ => Place.ofWord output
        | [] => if inPlace then source else .standard
      .ok ⟨arguments.converter direction, source, sink⟩

/-- What is reported before anything is read: the conversion of a file into a file. -/
def announcement (plan : Plan) : List Event :=
  match plan.source, plan.sink with
  | .file input, .file output => [.fileConversion input output plan.converter.direction]
  | _, _ => []

/-- Converts what has been read, if it could be read. -/
def convert (plan : Plan) (input : Except Error Bytes) : Outcome Error Bytes :=
  match input with
  | .error error => ⟨.error error, plan.announcement⟩
  | .ok input =>
    let outcome := plan.converter.convert input
    ⟨outcome.result, plan.announcement ++ outcome.events⟩

end Plan

end BinaryXml
