import BinaryXml.CommandLine.Workspace

/-!
# The program

Reads and writes what the plan for a command line names, and reports on the standard error. All
decisions are made by the plan.
-/

namespace BinaryXml.Program

set_option autoImplicit false

/-- The page that answers a request for help and a command line that is refused. -/
def usage : String :=
  "Usage: wbxml encode [OPTIONS] <INPUT> [OUTPUT]\n" ++
  "       wbxml decode [OPTIONS] <INPUT> [OUTPUT]\n\n" ++
  "Converts between XML and WBXML. A dash stands for the standard input or output.\n\n" ++
  "  -i, --in-place         Overwrite the input file\n" ++
  "      --strip-whitespace Drop blank text and trim other text\n" ++
  "      --opaque TEXT      Text of opaque data: base64, hex\n" ++
  "      --language NAME    Language of the document: activesync\n" ++
  "      --public-id        encode: write the identifier of the language\n" ++
  "      --string-table     encode: share names and texts in a string table\n" ++
  "      --pretty           decode: put elements on lines of their own\n" ++
  "      --indent N         decode: spaces for each level of pretty output\n" ++
  "      --charset NAME     decode: utf-8, us-ascii, iso-8859-1\n" ++
  "  -h, --help             Show this page\n"

/-- The variable of the environment that names the lightest level of events in the log. -/
def logVariable : String := "RUST_LOG"

/-- The fault behind an error of the system, whose number may come with a minus sign. -/
def fault (error : IO.Error) : FileFault :=
  match error with
  | .noFileOrDirectory .. => .notFound
  | .inappropriateType _ number _ | .invalidArgument _ number _ =>
    match min number (-number) with
    | 20 => .notDirectory
    | 21 => .isDirectory
    | 36 => .nameTooLong
    | _ => .other (toString error)
  | _ => .other (toString error)

/-- The result of an action on a file. -/
def attempt {α : Type} (action : IO α) : IO (Except Error α) := do
  match ← action.toBaseIO with
  | .ok value => return .ok value
  | .error error => return .error (.io (fault error))

/-- Reads a stream up to its end. -/
partial def readAll (stream : IO.FS.Stream) (read : ByteArray) : IO ByteArray := do
  let block ← stream.read 65536
  if block.isEmpty then return read else readAll stream (read ++ block)

def readPlace : Place → IO (Except Error Bytes)
  | .standard => attempt do return (← readAll (← IO.getStdin) .empty).toList
  | .file path => attempt do return (← IO.FS.readBinFile path).toList

def writePlace (data : Bytes) : Place → IO (Except Error Unit)
  | .standard => attempt do
    let stdout ← IO.getStdout
    stdout.write ⟨data.toArray⟩
    stdout.flush
  | .file path => attempt (IO.FS.writeBinFile path ⟨data.toArray⟩)

/-- Follows a plan. Nothing is written unless the conversion succeeds. -/
def follow (plan : Plan) : IO (Outcome Error Unit) := do
  let outcome := plan.convert (← readPlace plan.source)
  match outcome.result with
  | .error error => return ⟨.error error, outcome.events⟩
  | .ok data => return ⟨← writePlace data plan.sink, outcome.events⟩

end BinaryXml.Program

open BinaryXml in
/-- Runs a command line. -/
def main (words : List String) : IO UInt32 := do
  match Arguments.parse words with
  | .error rejection =>
    if rejection.exitCode = 0 then IO.print Program.usage else IO.eprint Program.usage
    return rejection.exitCode
  | .ok arguments =>
    let filter := ((← IO.getEnv Program.logVariable).bind LogFilter.ofName?).getD {}
    let outcome ← match Plan.of arguments with
      | .ok plan => Program.follow plan
      | .error error => pure ⟨.error error, []⟩
    for line in outcome.report filter do
      IO.eprintln line
    return match outcome.result with
      | .ok _ => 0
      | .error _ => 1
