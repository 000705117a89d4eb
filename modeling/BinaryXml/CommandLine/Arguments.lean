import BinaryXml.Options
import BinaryXml.Text.Numeral

/-!
# Arguments

The grammar of the command line: a subcommand for the direction, options, an input and an output.

* `Arguments` is what a command line says, and `Rejection` why one says nothing.
* `Arguments.parse` reads the words of a command line.
-/

namespace BinaryXml

set_option autoImplicit false

/-- Why a command line is refused. The first two answer it with a help page. -/
inductive Rejection where
  | help
  | noArguments
  | invalidValue
  | malformedValue
  | unknownArgument
  | repeatedArgument
  | valueForSwitch
  | missingInput
  | unknownSubcommand
deriving Repr, DecidableEq

/-- The exit code of a program that refuses its command line. -/
def Rejection.exitCode : Rejection → UInt32
  | .help => 0
  | _ => 2

/-! ## Options -/

/-- An option without a value. -/
inductive Switch where
  | inPlace
  | stripWhitespace
  | publicId
  | stringTable
  | pretty
deriving Repr, DecidableEq

/-- An option with a value. -/
inductive Setting where
  | opaqueEncoding
  | language
  | indent
  | charset
deriving Repr, DecidableEq

/-- An option by its long name. -/
inductive NamedOption where
  | help
  | switch (switch : Switch)
  | setting (setting : Setting)
deriving Repr, DecidableEq

/-- The option with a long name. Some belong to one subcommand only. -/
def NamedOption.find? (direction : Direction) (name : String) : Option NamedOption :=
  match name, direction with
  | "help", _ => some .help
  | "in-place", _ => some (.switch .inPlace)
  | "strip-whitespace", _ => some (.switch .stripWhitespace)
  | "opaque", _ => some (.setting .opaqueEncoding)
  | "language", _ => some (.setting .language)
  | "public-id", .encode => some (.switch .publicId)
  | "string-table", .encode => some (.switch .stringTable)
  | "pretty", .decode => some (.switch .pretty)
  | "indent", .decode => some (.setting .indent)
  | "charset", .decode => some (.setting .charset)
  | _, _ => none

/-- The subcommand with a name. -/
def Direction.ofName? : String → Option Direction
  | "encode" => some .encode
  | "decode" => some .decode
  | _ => none

/-- The text of opaque data with a name. -/
def OpaqueEncoding.ofName? : String → Option OpaqueEncoding
  | "base64" => some .base64
  | "hex" => some .hex
  | _ => none

/-- The character set with a name. -/
def Charset.ofName? : String → Option Charset
  | "utf-8" => some .utf8
  | "us-ascii" => some .usAscii
  | "iso-8859-1" => some .latin1
  | _ => none

/-- What a command line says. -/
structure Arguments where
  direction : Option Direction
  switches : List Switch := []
  opaqueEncoding : Option OpaqueEncoding := none
  language : Option Language := none
  indent : Option Nat := none
  charset : Option Charset := none
  /-- The input and the output, as far as they are given. -/
  paths : List String := []

namespace Arguments

/-! ## Values -/

/-- The largest indent is below this. -/
def indentLimit : Nat := 0x10000000000000000

/-- Whether a setting has a value already. -/
def has (arguments : Arguments) : Setting → Bool
  | .opaqueEncoding => arguments.opaqueEncoding.isSome
  | .language => arguments.language.isSome
  | .indent => arguments.indent.isSome
  | .charset => arguments.charset.isSome

/-- A value that is given, or the reason to refuse what stands in its place. -/
def given {α : Type} (rejection : Rejection) : Option α → Except Rejection (Option α)
  | some value => .ok (some value)
  | none => .error rejection

def set (arguments : Arguments) (setting : Setting) (value : String) :
    Except Rejection Arguments := do
  if arguments.has setting then .error .repeatedArgument
  match setting with
  | .opaqueEncoding =>
    let opaqueEncoding ← given .invalidValue (OpaqueEncoding.ofName? value)
    pure { arguments with opaqueEncoding }
  | .language =>
    let language ← given .malformedValue (Language.find? value)
    pure { arguments with language }
  | .indent =>
    let indent ← given .malformedValue (Numeral.read 10 indentLimit value.toList)
    pure { arguments with indent }
  | .charset =>
    let charset ← given .invalidValue (Charset.ofName? value)
    pure { arguments with charset }

def turnOn (arguments : Arguments) (switch : Switch) : Except Rejection Arguments :=
  if arguments.switches.contains switch then .error .repeatedArgument
  else .ok { arguments with switches := arguments.switches ++ [switch] }

/-! ## Words -/

/-- A setting that is complete only when the words after it are known, with its value if that has
been read. -/
structure Pending where
  setting : Setting
  value : Option String := none

/-- How far a command line has been read. -/
structure Progress where
  arguments : Arguments
  pending : Option Pending := none
  /-- Whether all further words are paths. -/
  pathsOnly : Bool := false

namespace Progress

def complete (progress : Progress) : Except Rejection Progress :=
  match progress.pending with
  | none => .ok progress
  | some ⟨_, none⟩ => .error .invalidValue
  | some ⟨setting, some value⟩ => do
    let arguments ← progress.arguments.set setting value
    pure { progress with arguments, pending := none }

/-- Reads a path. There is room for two. -/
def path (progress : Progress) (word : String) : Except Rejection Progress := do
  if 2 ≤ progress.arguments.paths.length then .error .unknownArgument
  let progress ← progress.complete
  let arguments := progress.arguments
  pure { progress with arguments := { arguments with paths := arguments.paths ++ [word] } }

def switch (progress : Progress) (switch : Switch) : Except Rejection Progress := do
  let progress ← progress.complete
  let arguments ← progress.arguments.turnOn switch
  pure { progress with arguments }

/-- Reads a request for help, which ends everything. -/
def help (progress : Progress) : Except Rejection Progress := do
  let _ ← progress.complete
  .error .help

/-- Reads short options that share a dash. -/
def short (progress : Progress) : List Char → Except Rejection Progress
  | [] => .ok progress
  | 'i' :: rest => do (← progress.switch .inPlace).short rest
  | 'h' :: _ => progress.help
  | _ => .error .unknownArgument

/-- Reads a long option, which may have a value behind an equals sign. -/
def long (progress : Progress) (direction : Direction) (characters : List Char) :
    Except Rejection Progress :=
  let name := characters.takeWhile (· != '=')
  let value? := (characters.drop name.length).tail?.map String.ofList
  match NamedOption.find? direction (String.ofList name), value? with
  | none, _ => .error .unknownArgument
  | some .help, none => progress.help
  | some (.switch switch), none => progress.switch switch
  | some .help, some _ | some (.switch _), some _ => .error .valueForSwitch
  | some (.setting setting), none => do
    let progress ← progress.complete
    pure { progress with pending := some { setting } }
  | some (.setting setting), some value => do
    let progress ← progress.complete
    let arguments ← progress.arguments.set setting value
    pure { progress with arguments }

/-- Reads a word. A setting takes the word after it as its value, unless that is an option. -/
def word (direction : Direction) (progress : Progress) (word : String) :
    Except Rejection Progress :=
  if progress.pathsOnly then progress.path word
  else
    match word.toList with
    | ['-', '-'] => .ok { progress with pathsOnly := true }
    | '-' :: '-' :: characters => progress.long direction characters
    | '-' :: c :: characters => progress.short (c :: characters)
    | _ =>
      match progress.pending with
      | some ⟨setting, none⟩ =>
        .ok { progress with pending := some { setting, value := some word } }
      | _ => progress.path word

end Progress

/-! ## Command lines -/

/-- Reads the words behind a subcommand. -/
def parseSubcommand (direction : Direction) (words : List String) :
    Except Rejection Arguments := do
  let progress ← words.foldlM (Progress.word direction) { arguments := { direction } }
  let progress ← progress.complete
  if progress.arguments.paths.isEmpty then .error .missingInput else .ok progress.arguments

/-- Whether a word is the name of a subcommand. -/
def isSubcommand (word : String) : Bool :=
  (Direction.ofName? word).isSome || word == "help"

/-- The answer to words behind the subcommand for help: at most one subcommand may be named. -/
def parseHelp : List String → Rejection
  | [] => .help
  | [word] => if isSubcommand word then .help else .unknownSubcommand
  | _ => .unknownSubcommand

/-- The answer to a command line that does not start with a subcommand. -/
def parseOther (word : String) (rest : List String) : Rejection :=
  match word.toList with
  | ['-', '-'] =>
    match rest with
    | [] => .noArguments
    | next :: _ => if isSubcommand next then .unknownArgument else .unknownSubcommand
  | '-' :: '-' :: characters =>
    if String.ofList (characters.takeWhile (· != '=')) = "help" then
      if characters.contains '=' then .valueForSwitch else .help
    else .unknownArgument
  | '-' :: 'h' :: _ => .help
  | '-' :: _ :: _ => .unknownArgument
  | _ => .unknownSubcommand

/-- Reads the words of a command line. -/
def parse : List String → Except Rejection Arguments
  | [] => .error .noArguments
  | first :: rest =>
    match Direction.ofName? first with
    | some direction => parseSubcommand direction rest
    | none => .error (if first = "help" then parseHelp rest else parseOther first rest)

end Arguments

end BinaryXml
