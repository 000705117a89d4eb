import BinaryXml.Document.Stripped
import BinaryXml.Proofs.Language.Lookup

/-! # Namespaces that are spelled in another way

* `Namespace.Alike`: no namespace on both sides, or two spellings of one.
* `Element.Respelled`: two trees that differ in the spelling of namespaces only.
* `Language.tagCode?_of_alike`: a tag has one place, however its namespace is spelled.
-/

namespace BinaryXml

set_option autoImplicit false

/-- Both namespaces are absent, or they are the same namespace. -/
inductive Namespace.Alike : Option String → Option String → Prop
  | absent : Alike none none
  | same {uri uri' : String} (same : Namespace.same uri uri' = true) : Alike (some uri) (some uri')

mutual

/-- Two elements that differ in the spelling of namespaces only. -/
inductive Element.Respelled : Element → Element → Prop
  | mk {name : String} {uri uri' : Option String} {attributes : List Attribute}
      {children children' : List Node} (space : Namespace.Alike uri uri')
      (inside : Node.RespelledAll children children') :
      Element.Respelled ⟨name, uri, attributes, children⟩ ⟨name, uri', attributes, children'⟩

/-- Nodes that differ in the spelling of namespaces only. -/
inductive Node.RespelledAll : List Node → List Node → Prop
  | nil : Node.RespelledAll [] []
  | element {child child' : Element} {rest rest' : List Node} (first : child.Respelled child')
      (others : Node.RespelledAll rest rest') :
      Node.RespelledAll (.element child :: rest) (.element child' :: rest')
  | text {content : String} {rest rest' : List Node} (others : Node.RespelledAll rest rest') :
      Node.RespelledAll (.text content :: rest) (.text content :: rest')
  | comment {content : String} {rest rest' : List Node} (others : Node.RespelledAll rest rest') :
      Node.RespelledAll (.comment content :: rest) (.comment content :: rest')

end

/-! ## Trees -/

theorem Node.RespelledAll.isEmpty {nodes nodes' : List Node} (h : Node.RespelledAll nodes nodes') :
    nodes.isEmpty = nodes'.isEmpty := by
  cases h <;> rfl

mutual

theorem Element.Respelled.stripped (whitespace : Whitespace) : ∀ {root root' : Element},
    root.Respelled root' → (root.stripped whitespace).Respelled (root'.stripped whitespace)
  | _, _, .mk space inside => by
    rw [Element.stripped, Element.stripped]
    exact .mk space (inside.stripped whitespace)

theorem Node.RespelledAll.stripped (whitespace : Whitespace) : ∀ {nodes nodes' : List Node},
    Node.RespelledAll nodes nodes' →
      Node.RespelledAll (Node.strippedAll whitespace nodes) (Node.strippedAll whitespace nodes')
  | _, _, .nil => .nil
  | _, _, .element first others => by
    rw [Node.strippedAll, Node.strippedAll]
    exact .element (first.stripped whitespace) (others.stripped whitespace)
  | _, _, .text others => by
    rw [Node.strippedAll, Node.strippedAll]
    split
    · exact .text (others.stripped whitespace)
    · exact others.stripped whitespace
  | _, _, .comment others => by
    rw [Node.strippedAll, Node.strippedAll]
    exact others.stripped whitespace

end

mutual

theorem Element.Respelled.texts : ∀ {root root' : Element}, root.Respelled root' →
    root.texts = root'.texts
  | _, _, .mk _ inside => by
    rw [Element.texts, Element.texts, inside.texts]

theorem Node.RespelledAll.texts : ∀ {nodes nodes' : List Node}, Node.RespelledAll nodes nodes' →
    Node.textsAll nodes = Node.textsAll nodes'
  | _, _, .nil => rfl
  | _, _, .element first others => by
    rw [Node.textsAll, Node.textsAll, first.texts, others.texts]
  | _, _, .text others => by
    rw [Node.textsAll, Node.textsAll, others.texts]
  | _, _, .comment others => by
    rw [Node.textsAll, Node.textsAll, others.texts]

end

/-! ## Tags -/

theorem Language.tagCode?_of_alike {language : Language} {uri uri' : Option String}
    (h : Namespace.Alike uri uri') (name : String) (current : UInt8) :
    language.tagCode? uri name current = language.tagCode? uri' name current := by
  cases h with
  | absent => rfl
  | same h => simp only [tagCode?, Option.bind_some, pageOfUri?_of_same h]

end BinaryXml
