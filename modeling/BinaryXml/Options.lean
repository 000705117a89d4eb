import BinaryXml.Language.Registry
import BinaryXml.Opaque.Encoding
import BinaryXml.Text.Charset
import BinaryXml.Text.Whitespace

/-!
# Options

What can be chosen for a conversion.

* `EncodeOptions` for XML to a stream, `DecodeOptions` for a stream to XML.
* The default values are those for ActiveSync messages.
-/

namespace BinaryXml

set_option autoImplicit false

/-- The highest version that can be read and written, 1.3. -/
def newestVersion : UInt8 := 3

/-- The nesting that documents may have if nothing else is said. -/
def defaultMaxDepth : Nat := 256

/-- The direction of a conversion. -/
inductive Direction where
  /-- From XML to a stream. -/
  | encode
  /-- From a stream to XML. -/
  | decode
deriving Repr, DecidableEq

def Direction.label : Direction → String
  | .encode => "Encode"
  | .decode => "Decode"

/-- How XML is laid out. -/
inductive OutputForm where
  /-- Nothing is added between markup. -/
  | compact
  /-- Elements that hold no text have each node on a line of its own. -/
  | pretty
deriving Repr, DecidableEq

/-- How XML becomes a stream. -/
structure EncodeOptions where
  language : Language := ActiveSync.language
  version : UInt8 := newestVersion
  /-- Whether the header says which language the stream is in. -/
  includePublicId : Bool := false
  /-- Whether literal names and repeated texts go into the string table. -/
  useStringTable : Bool := false
  whitespace : Whitespace := .preserve
  opaqueEncoding : OpaqueEncoding := .base64
  maxDepth : Nat := defaultMaxDepth

/-- How a stream becomes XML. -/
structure DecodeOptions where
  language : Language := ActiveSync.language
  form : OutputForm := .compact
  /-- The number of spaces for each level of pretty output. -/
  indent : Nat := 2
  charset : Charset := .utf8
  whitespace : Whitespace := .preserve
  opaqueEncoding : OpaqueEncoding := .base64
  maxDepth : Nat := defaultMaxDepth

end BinaryXml
