import BinaryXml.Text.Numeral
import BinaryXml.Text.Scalar

/-!
# References

Characters written as `&name;` or by their number.

* `inContent?` resolves the name of a reference in the content of an element.
* `inAttribute?` resolves the name of one in an attribute value.
* `unescape` resolves all references of an attribute value.
-/

namespace BinaryXml.Reference

set_option autoImplicit false

/-- The characters that have names. -/
def predefined? (name : List Char) : Option Char :=
  if name = ['l', 't'] then some '<'
  else if name = ['g', 't'] then some '>'
  else if name = ['a', 'm', 'p'] then some '&'
  else if name = ['a', 'p', 'o', 's'] then some '\''
  else if name = ['q', 'u', 'o', 't'] then some '"'
  else none

/-- The number behind `#`, read by a given reader of numerals in some base. -/
def code? (read : Nat → List Char → Option Nat) : List Char → Option Nat
  | 'x' :: digits => read 16 digits
  | digits => read 10 digits

/-- The character of a reference in the content of an element. A number may have a plus sign. -/
def inContent? : List Char → Option Char
  | '#' :: number => (code? (Numeral.read · 0x100000000) number).bind Scalar.char?
  | name => predefined? name

/-- The character of a reference in an attribute value. A number has no sign and is not zero. -/
def inAttribute? : List Char → Option Char
  | '#' :: number => ((code? Numeral.readDigits number).filter (· != 0)).bind Scalar.char?
  | name => predefined? name

/-- Resolves the references in the rest of a value, inside a reference of which the characters of
`name` have been read. -/
def unescapeFrom : Option (List Char) → List Char → Option (List Char)
  | none, [] => some []
  | some _, [] => none
  | none, c :: rest =>
    if c = '&' then unescapeFrom (some []) rest else (c :: ·) <$> unescapeFrom none rest
  | some name, c :: rest =>
    if c = ';' then do
      let resolved ← inAttribute? name
      let others ← unescapeFrom none rest
      some (resolved :: others)
    else if c = '&' then none
    else unescapeFrom (some (name ++ [c])) rest

/-- Resolves the references of an attribute value. -/
def unescape (value : String) : Option String :=
  String.ofList <$> unescapeFrom none value.toList

end BinaryXml.Reference
