import BinaryXml.Stream.Decoding
import BinaryXml.Stream.Encoding
import BinaryXml.Xml.Parsing
import BinaryXml.Xml.Writing

/-!
# Conversions

* `encode` turns an XML text into a stream, and `decode` a stream into an XML text.
* `Converter.convert` does the one or the other.
-/

namespace BinaryXml

set_option autoImplicit false

namespace Encoding

/-- Turns an XML text into a stream and reports on the way. -/
def runText (options : EncodeOptions) (text : Bytes) : Outcome Error Bytes :=
  match parseDocument options.language options.maxDepth text with
  | .error error => ⟨.error error, []⟩
  | .ok document => run options document

end Encoding

namespace Decoding

/-- Turns a stream into an XML text and reports on the way. -/
def runText (options : DecodeOptions) (stream : Bytes) : Outcome Error Bytes :=
  let outcome := run options stream
  ⟨outcome.result.bind (writeDocument options), outcome.events⟩

end Decoding

def encode (options : EncodeOptions) (text : Bytes) : Except Error Bytes :=
  (Encoding.runText options text).result

def decode (options : DecodeOptions) (stream : Bytes) : Except Error Bytes :=
  (Decoding.runText options stream).result

/-- A direction, and the options for both. -/
structure Converter where
  direction : Direction
  encoder : EncodeOptions := {}
  decoder : DecodeOptions := {}

def Converter.convert (converter : Converter) (input : Bytes) : Outcome Error Bytes :=
  match converter.direction with
  | .encode => Encoding.runText converter.encoder input
  | .decode => Decoding.runText converter.decoder input

end BinaryXml
