import BinaryXml.Document.Basic

/-! # Documents that are compared

Two documents are the same if their elements have the same names, namespaces and attributes, and
the same nodes inside. The instances decide this node by node.
-/

namespace BinaryXml

set_option autoImplicit false

mutual

def Element.decEq : (first second : Element) → Decidable (first = second)
  | ⟨name, uri, attributes, children⟩, ⟨name', uri', attributes', children'⟩ =>
    match decEq (name, uri, attributes) (name', uri', attributes'),
        Node.decEqAll children children' with
    | isTrue hhead, isTrue hchildren => isTrue (by cases hhead; cases hchildren; rfl)
    | isFalse hhead, _ => isFalse fun h => hhead (by cases h; rfl)
    | _, isFalse hchildren => isFalse fun h => hchildren (by cases h; rfl)

def Node.decEq : (first second : Node) → Decidable (first = second)
  | .element child, .element child' =>
    match Element.decEq child child' with
    | isTrue h => isTrue (by rw [h])
    | isFalse h => isFalse fun hnodes => h (by cases hnodes; rfl)
  | .text content, .text content' => decidable_of_iff (content = content') (by simp)
  | .comment content, .comment content' => decidable_of_iff (content = content') (by simp)
  | .element _, .text _ => isFalse nofun
  | .element _, .comment _ => isFalse nofun
  | .text _, .element _ => isFalse nofun
  | .text _, .comment _ => isFalse nofun
  | .comment _, .element _ => isFalse nofun
  | .comment _, .text _ => isFalse nofun

def Node.decEqAll : (first second : List Node) → Decidable (first = second)
  | [], [] => isTrue rfl
  | [], _ :: _ => isFalse nofun
  | _ :: _, [] => isFalse nofun
  | node :: rest, node' :: rest' =>
    match Node.decEq node node', Node.decEqAll rest rest' with
    | isTrue hnode, isTrue hrest => isTrue (by rw [hnode, hrest])
    | isFalse hnode, _ => isFalse fun h => hnode (by cases h; rfl)
    | _, isFalse hrest => isFalse fun h => hrest (by cases h; rfl)

end

instance : DecidableEq Element := Element.decEq

instance : DecidableEq Node := Node.decEq

deriving instance DecidableEq for Document

end BinaryXml
