import BinaryXml.Language.ActiveSync

/-!
# Built-in languages

* `builtIn` lists the languages that need no definition by the caller.
* `find?` looks one up by its name.
-/

namespace BinaryXml.Language

set_option autoImplicit false

/-- The languages that the library brings along. -/
def builtIn : List Language :=
  [ActiveSync.language]

/-- The built-in language with a name, whatever the case of its ASCII letters. -/
def find? (name : String) : Option Language :=
  builtIn.find? fun language =>
    Namespace.lowerAscii language.name == Namespace.lowerAscii name

end BinaryXml.Language
