import BinaryXml.Text.Numeral
import BinaryXml.Text.Printable

/-!
# Quoted text

Text inside messages, quoted so that its ends and its invisible characters can be seen.

* `text` quotes a string in double quotes.
* `char` quotes a character in single quotes.
* `optional` shows a string that may be absent.
-/

namespace BinaryXml.Quoted

set_option autoImplicit false

/-- One character between quotes of the given kind. The backslash marks escapes, so it is escaped
itself. -/
def escape (quote : Char) (c : Char) : List Char :=
  if c = '\x00' then ['\\', '0']
  else if c = '\t' then ['\\', 't']
  else if c = '\r' then ['\\', 'r']
  else if c = '\n' then ['\\', 'n']
  else if c = '\\' then ['\\', '\\']
  else if c = quote then ['\\', quote]
  else if Printable.isPrintable c then [c]
  else '\\' :: 'u' :: '\x7b' :: (Numeral.digits 16 c.toNat).map Char.toLower ++ ['\x7d']

/-- A string in double quotes. -/
def text (s : String) : String :=
  String.ofList ('"' :: s.toList.flatMap (escape '"') ++ ['"'])

/-- A character in single quotes. -/
def char (c : Char) : String :=
  String.ofList ('\'' :: escape '\'' c ++ ['\''])

/-- A string that may be absent. -/
def optional : Option String → String
  | none => "None"
  | some s => "Some(" ++ text s ++ ")"

end BinaryXml.Quoted
