/-!
# Numerals

Natural numbers in decimal and hexadecimal notation.

* `decimal`, `hex` and `hexByte` write them; letters are upper case.
* `readDigits` and `read` read them, the second with an optional plus sign.
-/

namespace BinaryXml.Numeral

set_option autoImplicit false

/-! ## Digits -/

/-- The digit for a value below sixteen. -/
def digit (value : Nat) : Char :=
  if value < 10 then Char.ofNat (0x30 + value) else Char.ofNat (0x37 + value)

/-- The value of a digit below `base`, with letters in either case. -/
def digitValue? (base : Nat) (c : Char) : Option Nat :=
  let n := c.toNat
  let value? :=
    if 0x30 ≤ n ∧ n ≤ 0x39 then some (n - 0x30)
    else if 0x41 ≤ n ∧ n ≤ 0x46 then some (n - 0x37)
    else if 0x61 ≤ n ∧ n ≤ 0x66 then some (n - 0x57)
    else none
  value?.filter (· < base)

/-! ## Writing -/

/-- The digits of a number, the most significant first. The second argument bounds their number. -/
def digitsFrom (base : Nat) (value : Nat) : Nat → List Char
  | 0 => []
  | bound + 1 =>
    if value < base then [digit value]
    else digitsFrom base (value / base) bound ++ [digit (value % base)]

/-- The digits of a number in a base of at least two. -/
def digits (base value : Nat) : List Char :=
  digitsFrom base value (value + 1)

def decimal (value : Nat) : String :=
  toString value

/-- Hexadecimal notation in upper case, without a mark in front. -/
def hex (value : Nat) : String :=
  String.ofList (digits 16 value)

/-- A byte as two hexadecimal digits. -/
def hexByte (value : UInt8) : String :=
  String.ofList [digit (value.toNat / 16), digit (value.toNat % 16)]

/-! ## Reading -/

/-- The value of a list of digits that follow the digits of `value`. -/
def valueFrom? (base : Nat) : Nat → List Char → Option Nat
  | value, [] => some value
  | value, c :: rest => do valueFrom? base (value * base + (← digitValue? base c)) rest

/-- The number that at least one digit denotes. -/
def readDigits (base : Nat) : List Char → Option Nat
  | [] => none
  | chars => valueFrom? base 0 chars

/-- The number below `bound` that digits denote, where one plus sign may stand in front. -/
def read (base bound : Nat) (chars : List Char) : Option Nat :=
  let unsigned := match chars with
    | '+' :: rest => rest
    | _ => chars
  (readDigits base unsigned).filter (· < bound)

end BinaryXml.Numeral
