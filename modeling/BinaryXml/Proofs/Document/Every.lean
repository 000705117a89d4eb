import BinaryXml.Document.Basic

/-! # What holds of all elements of a tree

* `Element.Every`: something holds of an element and of every element inside.
* `Element.Every.imp`: what follows for one element follows for all of them.
-/

namespace BinaryXml

set_option autoImplicit false

mutual

/-- Something holds of an element and of every element inside. -/
def Element.Every (holds : Element → Prop) : Element → Prop
  | ⟨name, uri, attributes, children⟩ =>
    holds ⟨name, uri, attributes, children⟩ ∧ Node.EveryAll holds children

def Node.EveryAll (holds : Element → Prop) : List Node → Prop
  | [] => True
  | .element child :: rest => child.Every holds ∧ Node.EveryAll holds rest
  | .text _ :: rest => Node.EveryAll holds rest
  | .comment _ :: rest => Node.EveryAll holds rest

end

section Every
variable {holds holds' : Element → Prop}

theorem Element.every_iff {name : String} {uri : Option String} {attributes : List Attribute}
    {children : List Node} : Element.Every holds ⟨name, uri, attributes, children⟩ ↔
      holds ⟨name, uri, attributes, children⟩ ∧ Node.EveryAll holds children := Iff.rfl

namespace Node

theorem everyAll_element_iff {child : Element} {nodes : List Node} :
    EveryAll holds (.element child :: nodes) ↔ child.Every holds ∧ EveryAll holds nodes := Iff.rfl

theorem everyAll_text_iff {content : String} {nodes : List Node} :
    EveryAll holds (.text content :: nodes) ↔ EveryAll holds nodes := Iff.rfl

theorem everyAll_comment_iff {content : String} {nodes : List Node} :
    EveryAll holds (.comment content :: nodes) ↔ EveryAll holds nodes := Iff.rfl

theorem every_of_mem {child : Element} {nodes : List Node} (h : EveryAll holds nodes)
    (hmem : .element child ∈ nodes) : child.Every holds := by
  induction nodes with
  | nil => cases hmem
  | cons node rest ih =>
    cases node with
    | element first =>
      rw [everyAll_element_iff] at h
      rcases List.mem_cons.mp hmem with heq | hmem
      · cases heq
        exact h.1
      · exact ih h.2 hmem
    | text content =>
      rw [everyAll_text_iff] at h
      exact ih h ((List.mem_cons.mp hmem).resolve_left (by simp))
    | comment content =>
      rw [everyAll_comment_iff] at h
      exact ih h ((List.mem_cons.mp hmem).resolve_left (by simp))

end Node

theorem Element.Every.self {root : Element} (h : root.Every holds) : holds root := by
  cases root
  exact (Element.every_iff.mp h).1

theorem Element.Every.child {root child : Element} (h : root.Every holds)
    (hmem : child ∈ root.childElements) : child.Every holds := by
  obtain ⟨name, uri, attributes, children⟩ := root
  refine Node.every_of_mem (Element.every_iff.mp h).2 ?_
  obtain ⟨node, hnode, heq⟩ := List.mem_filterMap.mp hmem
  cases node with
  | element first =>
    cases heq
    exact hnode
  | text content => cases heq
  | comment content => cases heq

mutual

theorem Element.Every.imp (h : ∀ element, holds element → holds' element) :
    ∀ {root : Element}, root.Every holds → root.Every holds'
  | ⟨_, _, _, _⟩, hroot => by
    rw [Element.Every] at hroot ⊢
    exact ⟨h _ hroot.1, Node.EveryAll.imp h hroot.2⟩

theorem Node.EveryAll.imp (h : ∀ element, holds element → holds' element) :
    ∀ {nodes : List Node}, Node.EveryAll holds nodes → Node.EveryAll holds' nodes
  | [], _ => by
    rw [Node.EveryAll]
    trivial
  | .element _ :: _, hnodes => by
    rw [Node.EveryAll] at hnodes ⊢
    exact ⟨Element.Every.imp h hnodes.1, Node.EveryAll.imp h hnodes.2⟩
  | .text _ :: _, hnodes => by
    rw [Node.EveryAll] at hnodes ⊢
    exact Node.EveryAll.imp h hnodes
  | .comment _ :: _, hnodes => by
    rw [Node.EveryAll] at hnodes ⊢
    exact Node.EveryAll.imp h hnodes

end

mutual

theorem Element.every_of_forall (h : ∀ element, holds element) :
    ∀ root : Element, root.Every holds
  | ⟨_, _, _, children⟩ => by
    rw [Element.Every]
    exact ⟨h _, Node.everyAll_of_forall h children⟩

theorem Node.everyAll_of_forall (h : ∀ element, holds element) :
    ∀ nodes : List Node, Node.EveryAll holds nodes
  | [] => by
    rw [Node.EveryAll]
    trivial
  | .element child :: rest => by
    rw [Node.EveryAll]
    exact ⟨Element.every_of_forall h child, Node.everyAll_of_forall h rest⟩
  | .text _ :: rest => by
    rw [Node.EveryAll]
    exact Node.everyAll_of_forall h rest
  | .comment _ :: rest => by
    rw [Node.EveryAll]
    exact Node.everyAll_of_forall h rest

end

end Every

end BinaryXml
