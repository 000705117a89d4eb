import BinaryXml.Proofs.Document.Coalescing

/-! # Trees without their namespaces

* `Element.unqualified`: what is left of a tree: names, nesting, attributes and texts.
* `Node.unqualifiedAll_consText`: a text is put in front of nodes that start with none.
-/

namespace BinaryXml

set_option autoImplicit false

mutual

def Element.unqualified : Element → Element
  | ⟨name, _, attributes, children⟩ => ⟨name, none, attributes, Node.unqualifiedAll children⟩

def Node.unqualifiedAll : List Node → List Node
  | [] => []
  | .element child :: rest => .element child.unqualified :: Node.unqualifiedAll rest
  | .text content :: rest => .text content :: Node.unqualifiedAll rest
  | .comment content :: rest => .comment content :: Node.unqualifiedAll rest

end

theorem Element.unqualified_eq_iff {element element' : Element} :
    element.unqualified = element'.unqualified ↔ element.name = element'.name ∧
      element.attributes = element'.attributes ∧
        Node.unqualifiedAll element.children = Node.unqualifiedAll element'.children := by
  obtain ⟨name, uri, attributes, children⟩ := element
  obtain ⟨name', uri', attributes', children'⟩ := element'
  rw [Element.unqualified, Element.unqualified]
  simp

namespace Node

theorem unqualifiedAll_element (child : Element) (rest : List Node) :
    unqualifiedAll (.element child :: rest) = .element child.unqualified :: unqualifiedAll rest := rfl

theorem unqualifiedAll_text (content : String) (rest : List Node) :
    unqualifiedAll (.text content :: rest) = .text content :: unqualifiedAll rest := rfl

theorem unqualifiedAll_comment (content : String) (rest : List Node) :
    unqualifiedAll (.comment content :: rest) = .comment content :: unqualifiedAll rest := rfl

theorem unqualifiedAll_eq_nil_iff {nodes : List Node} : unqualifiedAll nodes = [] ↔ nodes = [] := by
  cases nodes with
  | nil => rfl
  | cons node rest =>
    cases node <;> exact iff_of_false (List.cons_ne_nil _ _) (List.cons_ne_nil _ _)

theorem head?_unqualifiedAll {nodes : List Node} {content : String} :
    (unqualifiedAll nodes).head? = some (.text content) ↔ nodes.head? = some (.text content) := by
  cases nodes with
  | nil => rfl
  | cons node rest =>
    cases node with
    | element child => rw [unqualifiedAll_element]; simp
    | text first => rw [unqualifiedAll_text]; simp
    | comment first => rw [unqualifiedAll_comment]; simp

/-- No text that is joined is empty. -/
theorem head?_coalesce_ne (nodes : List Node) : (coalesce nodes).head? ≠ some (.text "") := by
  induction nodes with
  | nil => simp [coalesce]
  | cons node rest ih =>
    cases node with
    | element child => simp [coalesce]
    | comment content => simp [coalesce]
    | text content =>
      rw [coalesce]
      by_cases hempty : content = ""
      · rw [hempty, consText_empty]
        exact ih
      · unfold consText
        rw [String.isEmpty_eq_false_iff.mpr hempty]
        simp only [Bool.false_eq_true, if_false]
        split <;> simp [hempty]

/-- A text in front of joined nodes is the first text of others, which start with no other, if and
only if the nodes behind it are the same. -/
theorem unqualifiedAll_consText {data : String} {pieces nodes : List Node} (hdata : data ≠ "")
    (hnodes : ∀ text, nodes.head? ≠ some (.text text)) :
    unqualifiedAll (consText data (coalesce pieces)) = unqualifiedAll (.text data :: nodes) ↔
      unqualifiedAll (coalesce pieces) = unqualifiedAll nodes := by
  by_cases hhead : ∃ text, (coalesce pieces).head? = some (.text text)
  · obtain ⟨text, htext⟩ := hhead
    have hne : text ≠ "" := by
      rintro rfl
      exact head?_coalesce_ne pieces htext
    obtain ⟨rest, hrest⟩ := List.head?_eq_some_iff.mp htext
    constructor
    · intro h
      have hlonger : data ++ text = data := by
        unfold consText at h
        rw [String.isEmpty_eq_false_iff.mpr hdata, hrest] at h
        simp only [Bool.false_eq_true, if_false, unqualifiedAll, List.cons.injEq,
          Node.text.injEq] at h
        exact h.1
      exact absurd (String.append_eq_left_iff.mp hlonger) hne
    · intro h
      refine absurd ?_ (hnodes text)
      rw [← head?_unqualifiedAll, ← h, head?_unqualifiedAll, htext]
  · rw [consText_of_head? hdata fun text htext => hhead ⟨text, htext⟩, unqualifiedAll_text,
      unqualifiedAll_text, List.cons_inj_right]

end Node

end BinaryXml
