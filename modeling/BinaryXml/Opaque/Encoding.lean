import BinaryXml.Opaque.Hex
import BinaryXml.Opaque.Base64

/-!
# Text of opaque data

XML has no place for raw bytes; opaque data is shown as text in one of two encodings.

* `OpaqueEncoding.encode` writes bytes as text.
* `OpaqueEncoding.decode` accepts exactly the texts that `encode` writes.
-/

namespace BinaryXml

set_option autoImplicit false

/-- How opaque data is shown as text. -/
inductive OpaqueEncoding where
  /-- The standard alphabet with padding. -/
  | base64
  /-- Two upper-case hexadecimal digits for each byte. -/
  | hex
deriving Repr, DecidableEq

namespace OpaqueEncoding

def label : OpaqueEncoding → String
  | .base64 => "Base64"
  | .hex => "Hex"

/-- The text of some bytes. -/
def encode (encoding : OpaqueEncoding) (data : Bytes) : String :=
  match encoding with
  | .base64 => String.ofList (Base64.encode data)
  | .hex => String.ofList (Hex.encode data)

/-- The bytes of a text, if it is the text that `encode` writes for them. -/
def decode (encoding : OpaqueEncoding) (text : String) : Option Bytes :=
  let data? := match encoding with
    | .base64 => Base64.decode text.toList
    | .hex => Hex.decode text.toList
  data?.filter fun data => encoding.encode data == text

end OpaqueEncoding

end BinaryXml
