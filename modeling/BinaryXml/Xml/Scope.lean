import BinaryXml.Error
import BinaryXml.Xml.Attributes

/-!
# Namespaces in scope

Attributes named `xmlns` bind namespaces to tags without a colon, and those that start with
`xmlns:` bind them to the names before a colon.

* `Scope` holds the bindings that are visible at some place.
* `Scope.declare` adds the bindings of a tag, and `Scope.uri?` finds the namespace of a name.
-/

namespace BinaryXml

set_option autoImplicit false

/-- The bindings at some place, the nearest first. The empty name stands for tags without a
colon. -/
structure Scope where
  bindings : List (Bytes × Bytes)

namespace Scope

/-- The name of attributes that declare. -/
def declarator : Bytes := Markup.ascii "xmlns"

/-- The namespace of the name `xml`. -/
def xmlUri : Bytes := Markup.ascii "http://www.w3.org/XML/1998/namespace"

/-- The namespace of the name `xmlns`. -/
def xmlnsUri : Bytes := Markup.ascii "http://www.w3.org/2000/xmlns/"

/-- The bindings that every document starts with. -/
def initial : Scope :=
  ⟨[(Markup.ascii "xml", xmlUri), (declarator, xmlnsUri)]⟩

/-- What an attribute declares, if it declares anything: the namespace of tags without a colon, or
that of a name before a colon. -/
def declared? (key : Bytes) : Option (Option Bytes) :=
  if key = declarator then some none
  else (Markup.after (declarator ++ Markup.ascii ":") key).map some

/-- Makes a name stand for a namespace. -/
def bind (scope : Scope) (name uri : Bytes) : Scope :=
  ⟨(name, uri) :: scope.bindings⟩

/-- Adds the binding that an attribute may declare. The names `xml` and `xmlns` keep their
meaning, and no other name takes it. -/
def declareOne (scope : Scope) (item : RawAttribute) : Except XmlFault Scope :=
  match declared? item.key with
  | none => .ok scope
  | some none => .ok (scope.bind [] item.value)
  | some (some name) =>
    if name = Markup.ascii "xml" then
      if item.value = xmlUri then .ok scope else .error .grammar
    else if name = declarator ∨ item.value = xmlUri ∨ item.value = xmlnsUri then
      .error .grammar
    else .ok (scope.bind name item.value)

/-- Adds the bindings of the attributes of a tag. -/
def declare (scope : Scope) (items : List RawAttribute) : Except XmlFault Scope :=
  items.foldlM declareOne scope

/-- The nearest binding of a name. -/
def find? (scope : Scope) (name : Bytes) : Option Bytes :=
  (scope.bindings.find? (·.1 == name)).map (·.2)

/-- A name without what stands before its first colon, and that. -/
def split (name : Bytes) : Option Bytes × Bytes :=
  match Markup.cut [0x3A] name with
  | some (front, back) => (some front, back)
  | none => (none, name)

/-- The namespace for what stands before a colon. An empty name, and one that is bound to nothing,
has none; without a colon that is no fault. -/
def uri? (scope : Scope) : Option Bytes → Except XmlFault (Option Bytes)
  | none => .ok ((scope.find? []).filter (!·.isEmpty))
  | some name =>
    match (if name.isEmpty then none else scope.find? name).filter (!·.isEmpty) with
    | some uri => .ok (some uri)
    | none => .error (.unknownPrefix (Utf8.lossy name))

end Scope

end BinaryXml
