import BinaryXml.Proofs.Document.Levels
import BinaryXml.Proofs.Text.Whitespace

/-! # Documents without their comments

* `Element.uncommented`: the comments are gone, and texts that only comments kept apart are one.
* `Element.Seamless`: joining such texts keeps no blank character that trimming takes from one of
  them.
* `seamless_of_length`: joined texts are not shorter when they are trimmed, and as long only if they
  are seamless.
-/

namespace BinaryXml

set_option autoImplicit false

namespace Node

/-- Puts a text in front of some nodes. It joins a text that stands there. -/
def prependText (content : String) : List Node → List Node
  | .text next :: rest => .text (content ++ next) :: rest
  | nodes => .text content :: nodes

def startsWithComment : List Node → Bool
  | .comment _ :: _ => true
  | _ => false

/-- Nodes with a text in front, which is joined with the next one if there were comments between. -/
def placeText (content : String) (joins : Bool) (nodes : List Node) : List Node :=
  if joins then prependText content nodes else .text content :: nodes

end Node

mutual

/-- An element without comments, and with texts joined that only comments kept apart. -/
def Element.uncommented : Element → Element
  | ⟨name, uri, attributes, children⟩ => ⟨name, uri, attributes, Node.uncommentedAll children⟩

/-- Nodes without comments, and with texts joined that only comments kept apart. -/
def Node.uncommentedAll : List Node → List Node
  | [] => []
  | .element child :: rest => .element child.uncommented :: Node.uncommentedAll rest
  | .text content :: rest =>
    Node.placeText content (Node.startsWithComment rest) (Node.uncommentedAll rest)
  | .comment _ :: rest => Node.uncommentedAll rest

end

def Document.uncommented (document : Document) : Document :=
  ⟨document.root.uncommented⟩

mutual

/-- Where only comments keep texts of an element apart, there is no blank character at a seam that
trimming takes from one of them, and not from both together. -/
def Element.Seamless : Element → Prop
  | ⟨_, _, _, children⟩ => Node.SeamlessAll children

def Node.SeamlessAll : List Node → Prop
  | [] => True
  | .element child :: rest => child.Seamless ∧ Node.SeamlessAll rest
  | .text content :: rest => Node.SeamlessAll rest ∧ (Node.startsWithComment rest = true →
      ∀ next others, Node.uncommentedAll rest = .text next :: others →
        Blank.trim (content ++ next) = Blank.trim content ++ Blank.trim next)
  | .comment _ :: rest => Node.SeamlessAll rest

end

namespace Node

/-- A text that is put in front stands alone or with a text that stood there. -/
theorem placeText_cases (content : String) (joins : Bool) (nodes : List Node) :
    (placeText content joins nodes = .text content :: nodes ∧
        (joins = true → ∀ next others, nodes ≠ .text next :: others)) ∨
      joins = true ∧ ∃ next others, nodes = .text next :: others ∧
        placeText content joins nodes = .text (content ++ next) :: others := by
  unfold placeText
  cases joins with
  | false => exact .inl ⟨rfl, by simp⟩
  | true =>
    cases nodes with
    | nil => exact .inl ⟨rfl, by simp⟩
    | cons node rest =>
      cases node with
      | element child => exact .inl ⟨rfl, by simp⟩
      | text next => exact .inr ⟨rfl, next, rest, rfl, rfl⟩
      | comment comment => exact .inl ⟨rfl, by simp⟩

end Node

/-! ## Depth -/

mutual

theorem levels_uncommented : ∀ root : Element, root.uncommented.levels = root.levels
  | ⟨_, _, _, children⟩ => by
    rw [Element.uncommented, Element.levels_mk, Element.levels_mk, levelsAll_uncommentedAll children]

theorem levelsAll_uncommentedAll :
    ∀ nodes : List Node, Node.levelsAll (Node.uncommentedAll nodes) = Node.levelsAll nodes
  | [] => rfl
  | .element child :: rest => by
    rw [Node.uncommentedAll, Node.levelsAll_element, Node.levelsAll_element,
      levels_uncommented child, levelsAll_uncommentedAll rest]
  | .text content :: rest => by
    have hrest := levelsAll_uncommentedAll rest
    rw [Node.uncommentedAll]
    rcases Node.placeText_cases content (Node.startsWithComment rest) (Node.uncommentedAll rest) with
      ⟨hplaced, -⟩ | ⟨-, next, others, hnext, hplaced⟩
    · rw [hplaced, Node.levelsAll, Node.levelsAll, hrest]
    · rw [hnext] at hrest
      rw [hplaced, Node.levelsAll, Node.levelsAll, ← hrest, Node.levelsAll]
  | .comment _ :: rest => by
    rw [Node.uncommentedAll, Node.levelsAll, levelsAll_uncommentedAll rest]

end

/-! ## Seams -/

/-- The number of characters in the texts inside an element. -/
def Element.textLength (root : Element) : Nat := (String.join root.texts).length

def Node.textLengthAll (nodes : List Node) : Nat := (String.join (Node.textsAll nodes)).length

theorem Element.textLength_mk (name : String) (uri : Option String) (attributes : List Attribute)
    (children : List Node) :
    Element.textLength ⟨name, uri, attributes, children⟩ = Node.textLengthAll children := by
  rw [Element.textLength, Element.texts, Node.textLengthAll]

namespace Node

theorem textLengthAll_element (child : Element) (rest : List Node) :
    textLengthAll (.element child :: rest) = child.textLength + textLengthAll rest := by
  rw [textLengthAll, textsAll, String.join_append, String.length_append]
  rfl

theorem textLengthAll_text (content : String) (rest : List Node) :
    textLengthAll (.text content :: rest) = content.length + textLengthAll rest := by
  rw [textLengthAll, textsAll, String.join_cons, String.length_append]
  rfl

theorem textLengthAll_stripped_text (whitespace : Whitespace) (content : String)
    (rest : List Node) : textLengthAll (strippedAll whitespace (.text content :: rest)) =
      (whitespace.kept content).length + textLengthAll (strippedAll whitespace rest) := by
  rw [strippedAll, ← Whitespace.join_apply]
  cases whitespace.apply content with
  | none => exact (Nat.zero_add _).symm
  | some kept =>
    have hwhole : String.join [kept] = kept := String.empty_append
    rw [textLengthAll_text, Option.toList_some, hwhole]

end Node

mutual

/-- Trimming takes away no more where texts were joined, and no less only at seams without blank
characters. -/
theorem seamless_of_textLength : ∀ root : Element,
    (root.stripped .strip).textLength ≤ (root.uncommented.stripped .strip).textLength ∧
      ((root.uncommented.stripped .strip).textLength ≤ (root.stripped .strip).textLength →
        root.Seamless)
  | ⟨_, _, _, children⟩ => by
    simp only [Element.uncommented, Element.stripped, Element.textLength_mk, Element.Seamless]
    exact seamlessAll_of_textLengthAll children

theorem seamlessAll_of_textLengthAll : ∀ nodes : List Node,
    Node.textLengthAll (Node.strippedAll .strip nodes) ≤
        Node.textLengthAll (Node.strippedAll .strip (Node.uncommentedAll nodes)) ∧
      (Node.textLengthAll (Node.strippedAll .strip (Node.uncommentedAll nodes)) ≤
        Node.textLengthAll (Node.strippedAll .strip nodes) → Node.SeamlessAll nodes)
  | [] => ⟨Nat.le_refl _, fun _ => trivial⟩
  | .element child :: rest => by
    obtain ⟨hchild, hchildSeamless⟩ := seamless_of_textLength child
    obtain ⟨hrest, hrestSeamless⟩ := seamlessAll_of_textLengthAll rest
    rw [Node.uncommentedAll, Node.strippedAll, Node.strippedAll, Node.textLengthAll_element,
      Node.textLengthAll_element, Node.SeamlessAll]
    exact ⟨by omega, fun h => ⟨hchildSeamless (by omega), hrestSeamless (by omega)⟩⟩
  | .text content :: rest => by
    obtain ⟨hrest, hrestSeamless⟩ := seamlessAll_of_textLengthAll rest
    rw [Node.uncommentedAll, Node.textLengthAll_stripped_text, Whitespace.kept_strip,
      Node.SeamlessAll]
    rcases Node.placeText_cases content (Node.startsWithComment rest) (Node.uncommentedAll rest) with
      ⟨hplaced, halone⟩ | ⟨-, next, others, hnext, hplaced⟩
    · rw [hplaced, Node.textLengthAll_stripped_text, Whitespace.kept_strip]
      refine ⟨by omega, fun h => ⟨hrestSeamless (by omega), fun hcomment next others hnext => ?_⟩⟩
      exact absurd hnext (halone hcomment next others)
    -- Neither this seam nor the rest can make up for what the other one loses.
    · have hseam := Blank.length_trim_append_le content next
      rw [hnext, Node.textLengthAll_stripped_text, Whitespace.kept_strip] at hrest hrestSeamless
      rw [hplaced, hnext, Node.textLengthAll_stripped_text, Whitespace.kept_strip]
      refine ⟨by omega, fun h => ⟨hrestSeamless (by omega), ?_⟩⟩
      rintro - _ _ ⟨⟩
      exact Blank.trim_append_of_length (by omega)
  | .comment _ :: rest => by
    rw [Node.uncommentedAll, Node.strippedAll, Node.SeamlessAll]
    exact seamlessAll_of_textLengthAll rest

end

end BinaryXml
