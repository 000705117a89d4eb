/-!
# Documents

A document is a tree of elements with texts and comments between them.

* `Element` and `Node` are the tree.
* `Element.pushText` adds character data at the end and keeps it in one piece.
* `Element.attribute?`, `Element.text` and `Element.childElements` look into an element.
-/

namespace BinaryXml

set_option autoImplicit false

/-- An attribute of an element. -/
structure Attribute where
  name : String
  value : String
deriving Repr, DecidableEq

mutual

/-- An element, with the name of its namespace if it has one. -/
structure Element where
  name : String
  uri : Option String := none
  attributes : List Attribute := []
  children : List Node := []

/-- What may stand inside an element. -/
inductive Node where
  | element (element : Element)
  | text (content : String)
  | comment (content : String)

end

/-- A document has one outermost element. -/
structure Document where
  root : Element

namespace Node

/-- Adds character data at the end of some nodes. It joins a text that stands there, and empty
data adds nothing. -/
def pushText (nodes : List Node) (data : String) : List Node :=
  if data.isEmpty then nodes
  else match nodes.getLast? with
    | some (.text last) => nodes.dropLast ++ [.text (last ++ data)]
    | _ => nodes ++ [.text data]

/-- Puts character data in front of some nodes. It joins a text that stands there, and empty data
adds nothing. -/
def consText (data : String) (nodes : List Node) : List Node :=
  if data.isEmpty then nodes
  else match nodes with
    | .text next :: rest => .text (data ++ next) :: rest
    | _ => .text data :: nodes

/-- Joins texts that follow each other and drops empty ones. -/
def coalesce : List Node → List Node
  | [] => []
  | .text data :: rest => consText data (coalesce rest)
  | node :: rest => node :: coalesce rest

end Node

namespace Element

/-! ## Building -/

/-- Gives an element a namespace. -/
def withUri (element : Element) (uri : String) : Element :=
  { element with uri := some uri }

/-- Adds an attribute after the others. -/
def withAttribute (element : Element) (name value : String) : Element :=
  { element with attributes := element.attributes ++ [⟨name, value⟩] }

/-- Adds a node after the others, as it is. -/
def withNode (element : Element) (node : Node) : Element :=
  { element with children := element.children ++ [node] }

/-- Adds character data after the other nodes. -/
def pushText (element : Element) (data : String) : Element :=
  { element with children := Node.pushText element.children data }

/-! ## Looking inside -/

/-- The value of the first attribute with a name. -/
def attribute? (element : Element) (name : String) : Option String :=
  (element.attributes.find? (·.name == name)).map (·.value)

/-- The texts directly inside an element, put together. -/
def text (element : Element) : String :=
  String.join (element.children.filterMap fun
    | .text content => some content
    | _ => none)

/-- The elements directly inside an element. -/
def childElements (element : Element) : List Element :=
  element.children.filterMap fun
    | .element child => some child
    | _ => none

end Element

end BinaryXml
