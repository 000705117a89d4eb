import BinaryXml.Document.Stripped

/-! # Nesting

* `Element.levels`: how many elements stand inside each other, the outermost one included.
* `levels_stripped`, `Node.levelsAll_coalesce`: texts and comments do not count.
-/

namespace BinaryXml

set_option autoImplicit false

mutual

/-- The number of elements that stand inside each other. -/
def Element.levels : Element → Nat
  | ⟨_, _, _, children⟩ => Node.levelsAll children + 1

/-- The greatest number of levels of the elements among some nodes. -/
def Node.levelsAll : List Node → Nat
  | [] => 0
  | .element child :: rest => max child.levels (Node.levelsAll rest)
  | .text _ :: rest => Node.levelsAll rest
  | .comment _ :: rest => Node.levelsAll rest

end

theorem Element.levels_mk (name : String) (uri : Option String) (attributes : List Attribute)
    (children : List Node) :
    Element.levels ⟨name, uri, attributes, children⟩ = Node.levelsAll children + 1 := rfl

theorem Node.levelsAll_element (child : Element) (rest : List Node) :
    Node.levelsAll (.element child :: rest) = max child.levels (Node.levelsAll rest) := rfl

namespace Node

theorem levelsAll_consText (data : String) (nodes : List Node) :
    levelsAll (consText data nodes) = levelsAll nodes := by
  unfold consText
  split
  · rfl
  · split <;> simp only [levelsAll]

theorem levelsAll_coalesce (nodes : List Node) : levelsAll (coalesce nodes) = levelsAll nodes := by
  induction nodes with
  | nil => rfl
  | cons node rest ih =>
    cases node with
    | element child => simp only [coalesce, levelsAll, ih]
    | text data => simp only [coalesce, levelsAll, levelsAll_consText, ih]
    | comment data => simp only [coalesce, levelsAll, ih]

end Node

mutual

theorem levels_stripped (whitespace : Whitespace) :
    ∀ root : Element, (root.stripped whitespace).levels = root.levels
  | ⟨_, _, _, children⟩ => by
    rw [Element.stripped, Element.levels_mk, Element.levels_mk,
      levelsAll_strippedAll whitespace children]

theorem levelsAll_strippedAll (whitespace : Whitespace) :
    ∀ nodes : List Node, Node.levelsAll (Node.strippedAll whitespace nodes) = Node.levelsAll nodes
  | [] => rfl
  | .element child :: rest => by
    rw [Node.strippedAll, Node.levelsAll_element, Node.levelsAll_element,
      levels_stripped whitespace child, levelsAll_strippedAll whitespace rest]
  | .text content :: rest => by
    rw [Node.strippedAll]
    split <;> simp only [Node.levelsAll, levelsAll_strippedAll whitespace rest]
  | .comment _ :: rest => by
    rw [Node.strippedAll, Node.levelsAll, levelsAll_strippedAll whitespace rest]

end

end BinaryXml
