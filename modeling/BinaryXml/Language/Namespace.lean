/-!
# Namespace names

Two spellings of a namespace name are the same namespace if they differ only in the case of ASCII
letters and in colons at the end.

* `key` brings a name into one spelling.
* `same` compares two names by it.
-/

namespace BinaryXml.Namespace

set_option autoImplicit false

/-- A text with its ASCII letters in lower case. -/
def lowerAscii (text : String) : String :=
  String.ofList (text.toList.map Char.toLower)

/-- A name in lower case and without colons at its end. -/
def key (uri : String) : String :=
  lowerAscii (String.ofList (uri.toList.reverse.dropWhile (· == ':')).reverse)

/-- Whether two names are the same namespace. -/
def same (left right : String) : Bool :=
  key left == key right

end BinaryXml.Namespace
