import BinaryXml.Error

/-!
# Strings of a stream

Inline strings and the strings of the table are bytes in the character set of the stream.

* `Charset.decode` reads such bytes as text.
-/

namespace BinaryXml

set_option autoImplicit false

/-- The text of some bytes in a character set. -/
def Charset.decode (charset : Charset) (bytes : Bytes) : Except Error String :=
  match charset with
  | .latin1 => .ok (String.ofList (bytes.map fun b => Char.ofNat b.toNat))
  | .usAscii =>
    if bytes.all (· < 0x80) then .ok (String.ofList (bytes.map fun b => Char.ofNat b.toNat))
    else .error (.decoding (.notAscii (Utf8.lossy bytes)))
  | .utf8 =>
    match Utf8.decode bytes with
    | .ok text => .ok text
    | .error fault => .error (.decoding (.notUtf8 fault))

end BinaryXml
