import BinaryXml.Document.Basic

/-! # How much there is in a tree

* `Tally`: how many things there are, and how many characters they have together.
* `Element.tally`: the elements, attributes and texts of a tree, with the characters of their names,
  values and contents.
-/

namespace BinaryXml

set_option autoImplicit false

/-- A number of things, and the number of their characters. -/
@[ext] structure Tally where
  items : Nat
  characters : Nat
deriving Repr, DecidableEq

namespace Tally

instance : Zero Tally := ⟨⟨0, 0⟩⟩

instance : Add Tally := ⟨fun first second =>
  ⟨first.items + second.items, first.characters + second.characters⟩⟩

@[simp] theorem items_zero : (0 : Tally).items = 0 := rfl

@[simp] theorem characters_zero : (0 : Tally).characters = 0 := rfl

@[simp] theorem items_add (first second : Tally) :
    (first + second).items = first.items + second.items := rfl

@[simp] theorem characters_add (first second : Tally) :
    (first + second).characters = first.characters + second.characters := rfl

theorem add_zero (tally : Tally) : tally + 0 = tally := rfl

theorem zero_add (tally : Tally) : 0 + tally = tally :=
  Tally.ext (Nat.zero_add _) (Nat.zero_add _)

theorem add_assoc (first second third : Tally) : first + second + third = first + (second + third) :=
  Tally.ext (Nat.add_assoc _ _ _) (Nat.add_assoc _ _ _)

end Tally

/-! ## Trees -/

/-- An attribute, with the characters of its name and of its value. -/
def Attribute.tally (single : Attribute) : Tally :=
  ⟨1, single.name.length + single.value.length⟩

mutual

/-- The elements, attributes and texts of a tree. Comments do not count, nor do namespaces. -/
def Element.tally : Element → Tally
  | ⟨name, _, attributes, children⟩ =>
    ⟨1, name.length⟩ + (attributes.map Attribute.tally).sum + Node.tallyAll children

/-- The elements, attributes and texts of some trees. -/
def Node.tallyAll : List Node → Tally
  | [] => 0
  | .element child :: rest => child.tally + Node.tallyAll rest
  | .text content :: rest => ⟨1, content.length⟩ + Node.tallyAll rest
  | .comment _ :: rest => Node.tallyAll rest

end

theorem Element.tally_mk (name : String) (uri : Option String) (attributes : List Attribute)
    (children : List Node) : Element.tally ⟨name, uri, attributes, children⟩ =
      ⟨1, name.length⟩ + (attributes.map Attribute.tally).sum + Node.tallyAll children := rfl

namespace Node

@[simp] theorem tallyAll_nil : tallyAll [] = 0 := rfl

theorem tallyAll_element (child : Element) (rest : List Node) :
    tallyAll (.element child :: rest) = child.tally + tallyAll rest := rfl

theorem tallyAll_text (content : String) (rest : List Node) :
    tallyAll (.text content :: rest) = ⟨1, content.length⟩ + tallyAll rest := rfl

end Node

end BinaryXml
