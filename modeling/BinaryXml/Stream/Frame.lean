import BinaryXml.Error
import BinaryXml.Stream.Number

/-!
# Frames

Bytes inside a stream show where they end, by a zero byte or by their number.

* `Frame.terminated` and `Frame.counted` are the two forms.
* `Frame.terminated?` and `Frame.counted?` refuse what cannot be read back from its form.
-/

namespace BinaryXml.Frame

set_option autoImplicit false

def terminated (text : String) : Bytes :=
  Utf8.encode text ++ [0]

def counted (data : Bytes) : Bytes :=
  Number.encode (UInt32.ofNat data.length) ++ data

/-- The number of bytes from which on they cannot be counted. -/
def countLimit : Nat := 0x100000000

/-- A string with a zero byte behind it, if the string itself has none. -/
def terminated? (text : String) : Except Error Bytes :=
  let data := Utf8.encode text
  let position := (data.takeWhile (· != 0)).length
  if position < data.length then .error (.encoding (.nulInString position))
  else .ok (terminated text)

/-- Bytes with their number in front, if 32 bits hold the number. -/
def counted? (data : Bytes) : Except Error Bytes :=
  if data.length < countLimit then .ok (counted data)
  else .error (.encoding (.tooLong data.length))

end BinaryXml.Frame
