import BinaryXml.Stream.Code
import BinaryXml.Stream.Frame

/-!
# Writing bytes

A buffer grows by what is written to it.

* `Writer.byte`, `Writer.number`, `Writer.string`, `Writer.counted` and `Writer.bytes` write one
  thing each; `Writer.inlineString` and `Writer.opaqueData` put a token in front.
-/

namespace BinaryXml

set_option autoImplicit false

/-- The bytes written so far. -/
structure Buffer where
  bytes : Bytes := []
deriving Repr, DecidableEq

/-- A computation that adds to a buffer and may fail. -/
abbrev Writer := EStateM Error Buffer Unit

namespace Writer

def bytes (data : Bytes) : Writer := fun buffer =>
  .ok () ⟨buffer.bytes ++ data⟩

def byte (value : UInt8) : Writer :=
  bytes [value]

def number (value : UInt32) : Writer :=
  bytes (Number.encode value)

/-- Adds bytes that may not exist. -/
def checked (data : Except Error Bytes) : Writer := fun buffer =>
  match data with
  | .ok data => bytes data buffer
  | .error error => .error error buffer

/-- Adds a string and the zero byte that ends it. -/
def string (text : String) : Writer :=
  checked (Frame.terminated? text)

def counted (data : Bytes) : Writer :=
  checked (Frame.counted? data)

/-- Adds a string behind its token. The token is there even if the string cannot be written. -/
def inlineString (text : String) : Writer := do
  byte Code.inlineString
  string text

/-- Adds opaque data behind its token. The token is there even if the data cannot be written. -/
def opaqueData (data : Bytes) : Writer := do
  byte Code.opaqueData
  counted data

end Writer

end BinaryXml
