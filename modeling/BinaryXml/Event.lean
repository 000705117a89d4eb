import BinaryXml.Options
import BinaryXml.Text.Quoted

/-!
# Events

What a conversion reports while it runs, for diagnosis.

* `Event` has one constructor for each kind of report; `level`, `source`, `message` and `fields`
  say how it is shown.
* `Event.line` is the line of a log, and `LogFilter` decides which events are in the log.
* `Outcome` is a result together with the events on the way to it.
-/

namespace BinaryXml

set_option autoImplicit false

/-! ## Levels -/

/-- The weight of an event. -/
inductive Level where
  | trace
  | debug
  | info
  | warn
  | error
deriving Repr, DecidableEq

/-- The position of a level in the order of weight. -/
def Level.weight : Level → Nat
  | .trace => 0
  | .debug => 1
  | .info => 2
  | .warn => 3
  | .error => 4

def Level.name : Level → String
  | .trace => "TRACE"
  | .debug => "DEBUG"
  | .info => "INFO"
  | .warn => "WARN"
  | .error => "ERROR"

/-! ## Events -/

/-- The identifier of a language in the header of a stream. -/
inductive Identifier where
  | number (value : UInt32)
  | text (value : String)
deriving Repr, DecidableEq

/-- Something that happened during a conversion. -/
inductive Event where
  | tagPageWritten (old new : UInt8)
  | attributePageWritten (old new : UInt8)
  | literalTag (name : String) (uri : Option String)
  | literalAttribute (name : String)
  /-- The content of an opaque tag is not the text of any data. -/
  | notOpaque (element : String) (encoding : OpaqueEncoding)
  | tagPageRead (page : UInt8)
  | attributePageRead (page : UInt8)
  /-- The header names another language than the one the stream is read in. -/
  | foreignIdentifier (identifier : Identifier) (language : String)
  | fileConversion (input output : String) (direction : Direction)
deriving Repr, DecidableEq

/-- The value of a field: a number, words that are shown as they are, or a text that a log line
shows in quotes. -/
inductive FieldValue where
  | number (value : Nat)
  | plain (value : String)
  | quoted (value : String)
deriving Repr, DecidableEq

/-- A named value of an event. -/
structure Field where
  name : String
  value : FieldValue
deriving Repr, DecidableEq

/-- A value without quotes. -/
def FieldValue.bare : FieldValue → String
  | .number value => Numeral.decimal value
  | .plain value => value
  | .quoted value => value

/-- A value as a log line shows it. -/
def FieldValue.shown : FieldValue → String
  | .number value => Numeral.decimal value
  | .plain value => value
  | .quoted value => Quoted.text value

namespace Event

def level : Event → Level
  | .tagPageWritten .. | .attributePageWritten .. | .tagPageRead _ | .attributePageRead _ => .trace
  | .literalTag .. | .literalAttribute _ | .notOpaque .. | .fileConversion .. => .debug
  | .foreignIdentifier .. => .warn

/-- The part of the program that an event comes from. -/
def source : Event → String
  | .tagPageWritten .. | .attributePageWritten .. | .literalTag .. | .literalAttribute _
  | .notOpaque .. => "wbxml::encoder"
  | .tagPageRead _ | .attributePageRead _ | .foreignIdentifier .. => "wbxml::decoder"
  | .fileConversion .. => "wbxml::converter"

def message : Event → String
  | .tagPageWritten .. | .tagPageRead _ => "switching tag code page"
  | .attributePageWritten .. | .attributePageRead _ => "switching attribute code page"
  | .literalTag .. => "no tag token, writing literal"
  | .literalAttribute _ => "no attribute token, writing literal"
  | .notOpaque .. => "opaque content is not encoded data, writing a string"
  | .foreignIdentifier .. => "public identifier does not match the language, decoding anyway"
  | .fileConversion .. => "converting file"

def fields : Event → List Field
  | .tagPageWritten old new | .attributePageWritten old new =>
    [⟨"from", .number old.toNat⟩, ⟨"to", .number new.toNat⟩]
  | .literalTag name uri =>
    [⟨"element", .plain name⟩, ⟨"namespace", .plain (Quoted.optional uri)⟩]
  | .literalAttribute name => [⟨"attribute", .plain name⟩]
  | .notOpaque element encoding =>
    [⟨"element", .quoted element⟩, ⟨"encoding", .plain encoding.label⟩]
  | .tagPageRead page | .attributePageRead page => [⟨"page", .number page.toNat⟩]
  | .foreignIdentifier identifier language =>
    let value := match identifier with
      | .number value => .number value.toNat
      | .text value => .plain value
    [⟨"public_id", value⟩, ⟨"language", .quoted language⟩]
  | .fileConversion input output direction =>
    [⟨"input", .quoted input⟩, ⟨"output", .quoted output⟩, ⟨"direction", .plain direction.label⟩]

def line (event : Event) : String :=
  event.level.name ++ " " ++ event.source ++ ": " ++ event.message ++
    String.join (event.fields.map fun field => " " ++ field.name ++ "=" ++ field.value.shown)

end Event

/-! ## Logs -/

/-- The lightest level of events that a log holds, if it holds any. -/
structure LogFilter where
  least : Option Level := some .warn

/-- Whether an event belongs to a log. -/
def LogFilter.admits (filter : LogFilter) (event : Event) : Bool :=
  filter.least.any fun least => least.weight ≤ event.level.weight

/-- The filter with a name; without a name, warnings and what is graver. -/
def LogFilter.ofName? (name : String) : Option LogFilter :=
  match name with
  | "off" => some ⟨none⟩
  | "error" => some ⟨some .error⟩
  | "warn" => some ⟨some .warn⟩
  | "info" => some ⟨some .info⟩
  | "debug" => some ⟨some .debug⟩
  | "trace" => some ⟨some .trace⟩
  | _ => none

/-- A result and the events on the way to it, in their order. -/
structure Outcome (ε α : Type) where
  result : Except ε α
  events : List Event := []

end BinaryXml
