import BinaryXml.Text.Blank

/-!
# White space of documents

What becomes of the blank characters around the text of an element.

* `Whitespace.apply` says what is left of a text, if anything is.
-/

namespace BinaryXml

set_option autoImplicit false

/-- Whether blank characters at the ends of a text belong to the document. -/
inductive Whitespace where
  | preserve
  | strip
deriving Repr, DecidableEq

namespace Whitespace

/-- What is left of a text; nothing if that is empty. -/
def apply (whitespace : Whitespace) (text : String) : Option String :=
  let kept := match whitespace with
    | .preserve => text
    | .strip => Blank.trim text
  if kept.isEmpty then none else some kept

end Whitespace

end BinaryXml
