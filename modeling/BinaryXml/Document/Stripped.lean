import BinaryXml.Document.Basic
import BinaryXml.Text.Whitespace

/-!
# What is written of a document

Comments are never written to a stream, and blank text only where it belongs to the document.

* `Element.stripped` leaves out what is not written.
* `Element.texts` lists the texts of a tree in document order.
-/

namespace BinaryXml

set_option autoImplicit false

mutual

/-- An element without comments, its texts treated as the white space policy says. -/
def Element.stripped (whitespace : Whitespace) : Element → Element
  | ⟨name, uri, attributes, children⟩ =>
    ⟨name, uri, attributes, Node.strippedAll whitespace children⟩

/-- Nodes without comments, the texts treated as the white space policy says. -/
def Node.strippedAll (whitespace : Whitespace) : List Node → List Node
  | [] => []
  | .element child :: rest => .element (child.stripped whitespace) :: Node.strippedAll whitespace rest
  | .text content :: rest =>
    match whitespace.apply content with
    | some kept => .text kept :: Node.strippedAll whitespace rest
    | none => Node.strippedAll whitespace rest
  | .comment _ :: rest => Node.strippedAll whitespace rest

end

mutual

/-- The texts inside an element, at any depth. -/
def Element.texts : Element → List String
  | ⟨_, _, _, children⟩ => Node.textsAll children

/-- The texts among some nodes, at any depth. -/
def Node.textsAll : List Node → List String
  | [] => []
  | .element child :: rest => child.texts ++ Node.textsAll rest
  | .text content :: rest => content :: Node.textsAll rest
  | .comment _ :: rest => Node.textsAll rest

end

end BinaryXml
