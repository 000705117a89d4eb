/-!
# Characters by number

* `Scalar.char?` is the character with a number; surrogates and numbers above U+10FFFF have none.
-/

namespace BinaryXml.Scalar

set_option autoImplicit false

/-- The character with a number. -/
def char? (code : Nat) : Option Char :=
  if code.isValidChar then some (Char.ofNat code) else none

end BinaryXml.Scalar
