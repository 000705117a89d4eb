/-!
# Blank text

White space in the sense of Unicode's `White_Space` property.

* `isBlank` decides the property for one character.
* `trim` removes it from both ends of a string, and `firstWord` finds the first run without it.
-/

namespace BinaryXml.Blank

set_option autoImplicit false

/-- The characters with the property `White_Space`. -/
def isBlank (c : Char) : Bool :=
  let n := c.toNat
  (0x09 ≤ n && n ≤ 0x0D) || n == 0x20 || n == 0x85 || n == 0xA0 || n == 0x1680 ||
    (0x2000 ≤ n && n ≤ 0x200A) || n == 0x2028 || n == 0x2029 || n == 0x202F || n == 0x205F ||
    n == 0x3000

/-- The characters of a text without the blank ones at its two ends. -/
def trimChars (chars : List Char) : List Char :=
  ((chars.dropWhile isBlank).reverse.dropWhile isBlank).reverse

/-- A text without the blank characters at its two ends. -/
def trim (text : String) : String :=
  String.ofList (trimChars text.toList)

/-- Whether a text has no character that is not blank. -/
def isBlankText (text : String) : Bool :=
  text.toList.all isBlank

/-- The first maximal run of characters that are not blank, empty if there is none. -/
def firstWord (text : String) : String :=
  String.ofList ((text.toList.dropWhile isBlank).takeWhile (!isBlank ·))

end BinaryXml.Blank
