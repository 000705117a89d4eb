import BinaryXml.Proofs.Document.Coalescing
import BinaryXml.Proofs.Document.Every

/-! # Paths in a tree

A path leads from the outermost element down to another one: at each level it says how many elements
stand before the one that it goes into.

* `Element.at?`: the element at the end of a path.
* `Element.update`: the tree in which that element is another one.
* `Node.coalesce_updateAt`: joined texts stay the same in it.
-/

namespace BinaryXml

set_option autoImplicit false

/-- The elements among some nodes. -/
def Node.elements (nodes : List Node) : List Element :=
  nodes.filterMap fun
    | .element child => some child
    | _ => none

/-- The element at the end of a path. -/
def Element.at? (root : Element) : List Nat → Option Element
  | [] => some root
  | index :: path => root.childElements[index]?.bind fun child => child.at? path

/-- Changes one of the elements among some nodes. -/
def Node.updateAt (change : Element → Element) : Nat → List Node → List Node
  | _, [] => []
  | 0, .element child :: rest => .element (change child) :: rest
  | index + 1, .element child :: rest => .element child :: updateAt change index rest
  | index, .text content :: rest => .text content :: updateAt change index rest
  | index, .comment content :: rest => .comment content :: updateAt change index rest

/-- Changes the element at the end of a path. -/
def Element.update (change : Element → Element) : List Nat → Element → Element
  | [], root => change root
  | index :: path, root =>
    { root with children := Node.updateAt (Element.update change path) index root.children }

/-! ## Elements among nodes -/

namespace Node

@[simp] theorem elements_nil : elements [] = [] := rfl

@[simp] theorem elements_element (child : Element) (rest : List Node) :
    elements (.element child :: rest) = child :: elements rest := rfl

@[simp] theorem elements_text (content : String) (rest : List Node) :
    elements (.text content :: rest) = elements rest := rfl

@[simp] theorem elements_comment (content : String) (rest : List Node) :
    elements (.comment content :: rest) = elements rest := rfl

@[simp] theorem elements_append (front back : List Node) :
    elements (front ++ back) = elements front ++ elements back :=
  List.filterMap_append

@[simp] theorem elements_texts (run : List String) : elements (run.map .text) = [] := by
  induction run with
  | nil => rfl
  | cons text run ih => exact ih

theorem elements_consText (data : String) (nodes : List Node) :
    elements (consText data nodes) = elements nodes := by
  unfold consText
  split
  · rfl
  · split <;> rfl

@[simp] theorem elements_coalesce (nodes : List Node) :
    elements (coalesce nodes) = elements nodes := by
  induction nodes with
  | nil => rfl
  | cons node rest ih =>
    cases node with
    | element child => exact congrArg (child :: ·) ih
    | text content => exact (elements_consText content _).trans ih
    | comment content => exact ih

end Node

/-! ## Elements at the end of a path -/

theorem Element.at?_cons (root : Element) (index : Nat) (path : List Nat) :
    root.at? (index :: path) =
      (Node.elements root.children)[index]?.bind fun child => child.at? path := rfl

theorem Element.at?_cons_of_children {root child : Element} {before behind : List Node}
    (h : Node.elements root.children = Node.elements (before ++ .element child :: behind))
    (path : List Nat) : root.at? ((Node.elements before).length :: path) = child.at? path := by
  rw [Element.at?_cons, h, Node.elements_append, Node.elements_element,
    List.getElem?_append_right (Nat.le_refl _), Nat.sub_self]
  rfl

theorem every_at? {holds : Element → Prop} {root element : Element} {path : List Nat}
    (h : root.Every holds) (hat : root.at? path = some element) : holds element := by
  induction path generalizing root with
  | nil =>
    cases hat
    exact h.self
  | cons index path ih =>
    obtain ⟨child, hchild, hat⟩ := Option.bind_eq_some_iff.mp hat
    exact ih (h.child (List.mem_of_getElem? hchild)) hat

/-! ## Changing an element -/

namespace Node
variable {change : Element → Element} {index : Nat} {nodes : List Node}

@[simp] theorem updateAt_zero (child : Element) (rest : List Node) :
    updateAt change 0 (.element child :: rest) = .element (change child) :: rest := rfl

@[simp] theorem updateAt_succ (child : Element) (rest : List Node) :
    updateAt change (index + 1) (.element child :: rest) =
      .element child :: updateAt change index rest := rfl

@[simp] theorem updateAt_text (content : String) (rest : List Node) :
    updateAt change index (.text content :: rest) = .text content :: updateAt change index rest := by
  cases index <;> rfl

@[simp] theorem updateAt_comment (content : String) (rest : List Node) :
    updateAt change index (.comment content :: rest) =
      .comment content :: updateAt change index rest := by
  cases index <;> rfl

theorem updateAt_of_ne {node : Node} (h : ∀ child, node ≠ .element child) (rest : List Node) :
    updateAt change index (node :: rest) = node :: updateAt change index rest := by
  cases node with
  | element child => exact absurd rfl (h child)
  | text content => rw [updateAt_text]
  | comment content => rw [updateAt_comment]

theorem updateAt_consText (data : String) (nodes : List Node) :
    updateAt change index (consText data nodes) = consText data (updateAt change index nodes) := by
  unfold consText
  split
  · rfl
  · cases nodes with
    | nil => rw [updateAt_text, updateAt]
    | cons node rest =>
      cases node with
      | text content => rw [updateAt_text, updateAt_text]
      | comment content => rw [updateAt_text, updateAt_comment]
      | element child =>
        rw [updateAt_text]
        cases index with
        | zero => rw [updateAt_zero]
        | succ index => rw [updateAt_succ]

/-- Joined texts stay as they are where an element is changed. -/
theorem coalesce_updateAt (nodes : List Node) :
    coalesce (updateAt change index nodes) = updateAt change index (coalesce nodes) := by
  induction nodes generalizing index with
  | nil => simp only [updateAt, coalesce]
  | cons node rest ih =>
    cases node with
    | text content => simp only [updateAt_text, coalesce, updateAt_consText, ih]
    | comment content => simp only [updateAt_comment, coalesce, ih]
    | element child =>
      cases index with
      | zero => simp only [updateAt_zero, coalesce]
      | succ index => simp only [updateAt_succ, coalesce, ih]

theorem elements_updateAt (nodes : List Node) :
    elements (updateAt change index nodes) = (elements nodes).modify index change := by
  induction nodes generalizing index with
  | nil => simp [updateAt]
  | cons node rest ih =>
    cases node with
    | text content => rw [updateAt_text, elements_text, elements_text, ih]
    | comment content => rw [updateAt_comment, elements_comment, elements_comment, ih]
    | element child =>
      cases index with
      | zero => simp
      | succ index => simp [ih]

end Node

theorem Element.update_cons (change : Element → Element) (index : Nat) (path : List Nat)
    (root : Element) : root.update change (index :: path) =
      { root with children := Node.updateAt (Element.update change path) index root.children } := rfl

theorem Element.at?_update (change : Element → Element) {root element : Element} {path : List Nat}
    (h : root.at? path = some element) :
    (root.update change path).at? path = some (change element) := by
  induction path generalizing root with
  | nil =>
    cases h
    rfl
  | cons index path ih =>
    rw [Element.at?_cons] at h ⊢
    obtain ⟨child, hchild, hat⟩ := Option.bind_eq_some_iff.mp h
    rw [Element.update_cons, Node.elements_updateAt, List.getElem?_modify_eq, hchild]
    exact ih hat

end BinaryXml
