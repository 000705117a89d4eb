import BinaryXml.Text.Utf8
import BinaryXml.Text.Numeral

/-!
# Hexadecimal text of bytes

Two digits for each byte.

* `encode` writes upper-case digits.
* `decode` reads digits of either case.
-/

namespace BinaryXml.Hex

set_option autoImplicit false

/-- Two upper-case digits for each byte. -/
def encode (data : Bytes) : List Char :=
  data.flatMap fun b => [Numeral.digit (b.toNat / 16), Numeral.digit (b.toNat % 16)]

/-- The bytes that pairs of digits denote. -/
def decode : List Char → Option Bytes
  | [] => some []
  | [_] => none
  | c :: d :: rest => do
    let high ← Numeral.digitValue? 16 c
    let low ← Numeral.digitValue? 16 d
    let tail ← decode rest
    some (UInt8.ofNat (high * 16 + low) :: tail)

end BinaryXml.Hex
