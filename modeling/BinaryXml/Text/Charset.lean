/-!
# Character sets

The character sets that a stream may announce and that XML output may be written in.

* `Charset.mib` and `Charset.ofMib?` relate them to their registered numbers.
* `Charset.canEncode` decides which characters a set holds.
-/

namespace BinaryXml

set_option autoImplicit false

/-- A character set. -/
inductive Charset where
  | utf8
  | usAscii
  | latin1
deriving Repr, DecidableEq

namespace Charset

/-- The registered number (MIBenum) that a stream's header carries. -/
def mib : Charset → UInt32
  | .utf8 => 106
  | .usAscii => 3
  | .latin1 => 4

/-- The character set with a registered number. -/
def ofMib? (number : UInt32) : Option Charset :=
  if number = 106 then some .utf8
  else if number = 3 then some .usAscii
  else if number = 4 then some .latin1
  else none

/-- The name that an XML declaration carries. -/
def xmlName : Charset → String
  | .utf8 => "UTF-8"
  | .usAscii => "US-ASCII"
  | .latin1 => "ISO-8859-1"

/-- Whether a character belongs to the set. -/
def canEncode : Charset → Char → Bool
  | .utf8, _ => true
  | .usAscii, c => c.toNat < 0x80
  | .latin1, c => c.toNat < 0x100

end Charset

end BinaryXml
