import Mathlib.Data.List.Chain
import BinaryXml.Proofs.Document.Coalescing
import BinaryXml.Proofs.Document.Every

/-! # Texts in one piece

* `Node.Joined`: no text is empty, and none is next to another one.
* `Node.joined_coalesce`: so it is where texts that follow each other were joined.
* `Node.everyAll_coalesce`: the elements among the nodes stay as they are.
-/

namespace BinaryXml.Node

set_option autoImplicit false

def IsText : Node → Prop
  | .text _ => True
  | _ => False

/-- No text among some nodes is empty, and none is next to another one. -/
structure Joined (nodes : List Node) : Prop where
  nonempty : Node.text "" ∉ nodes
  apart : nodes.IsChain fun first second => ¬ (first.IsText ∧ second.IsText)

theorem joined_nil : Joined [] := ⟨by simp, .nil⟩

theorem joined_cons_iff {node : Node} {nodes : List Node} : Joined (node :: nodes) ↔
    node ≠ .text "" ∧ (node.IsText → ∀ text, nodes.head? ≠ some (.text text)) ∧ Joined nodes := by
  constructor
  · rintro ⟨hnonempty, hapart⟩
    rw [List.mem_cons, not_or] at hnonempty
    obtain ⟨hhead, hrest⟩ := List.isChain_cons.mp hapart
    refine ⟨fun heq => hnonempty.1 heq.symm, fun htext text hnext => ?_, hnonempty.2, hrest⟩
    exact hhead _ hnext ⟨htext, trivial⟩
  · rintro ⟨hnode, hhead, hnonempty, hapart⟩
    refine ⟨?_, List.isChain_cons.mpr ⟨fun next hnext htexts => ?_, hapart⟩⟩
    · rw [List.mem_cons, not_or]
      exact ⟨fun heq => hnode heq.symm, hnonempty⟩
    · cases next with
      | text text => exact hhead htexts.1 text hnext
      | element child => exact htexts.2
      | comment content => exact htexts.2

theorem joined_element_iff {child : Element} {nodes : List Node} :
    Joined (.element child :: nodes) ↔ Joined nodes := by
  rw [joined_cons_iff]
  exact ⟨fun h => h.2.2, fun h => ⟨by simp, False.elim, h⟩⟩

theorem joined_comment_iff {content : String} {nodes : List Node} :
    Joined (.comment content :: nodes) ↔ Joined nodes := by
  rw [joined_cons_iff]
  exact ⟨fun h => h.2.2, fun h => ⟨by simp, False.elim, h⟩⟩

theorem joined_text_iff {content : String} {nodes : List Node} :
    Joined (.text content :: nodes) ↔
      content ≠ "" ∧ (∀ text, nodes.head? ≠ some (.text text)) ∧ Joined nodes := by
  rw [joined_cons_iff]
  constructor
  · rintro ⟨hne, hhead, hrest⟩
    exact ⟨fun heq => hne (by rw [heq]), hhead trivial, hrest⟩
  · rintro ⟨hne, hhead, hrest⟩
    exact ⟨fun heq => hne (Node.text.inj heq), fun _ => hhead, hrest⟩

theorem Joined.consText {nodes : List Node} (h : Joined nodes) (data : String) :
    Joined (consText data nodes) := by
  by_cases hdata : data = ""
  · subst hdata
    exact h
  · by_cases hhead : ∃ text, nodes.head? = some (.text text)
    · obtain ⟨text, htext⟩ := hhead
      obtain ⟨rest, rfl⟩ := List.head?_eq_some_iff.mp htext
      obtain ⟨-, hrest⟩ := joined_text_iff.mp h
      unfold Node.consText
      rw [String.isEmpty_eq_false_iff.mpr hdata]
      exact joined_text_iff.mpr ⟨fun heq => hdata (String.append_eq_empty_iff.mp heq).1, hrest⟩
    · have hnone : ∀ text, nodes.head? ≠ some (.text text) := fun text htext => hhead ⟨text, htext⟩
      rw [consText_of_head? hdata hnone]
      exact joined_text_iff.mpr ⟨hdata, hnone, h⟩

theorem joined_coalesce (nodes : List Node) : Joined (coalesce nodes) := by
  induction nodes with
  | nil => exact joined_nil
  | cons node rest ih =>
    cases node with
    | element child => exact joined_element_iff.mpr ih
    | text data => exact ih.consText data
    | comment content => exact joined_comment_iff.mpr ih

section Every
variable {holds : Element → Prop}

theorem everyAll_consText {data : String} {nodes : List Node} :
    EveryAll holds (consText data nodes) ↔ EveryAll holds nodes := by
  unfold consText
  split
  · rfl
  · split
    · rw [everyAll_text_iff, everyAll_text_iff]
    · rw [everyAll_text_iff]

theorem everyAll_coalesce {nodes : List Node} :
    EveryAll holds (coalesce nodes) ↔ EveryAll holds nodes := by
  induction nodes with
  | nil => rfl
  | cons node rest ih =>
    cases node with
    | element child => simp only [coalesce, everyAll_element_iff, ih]
    | text data => simp only [coalesce, everyAll_consText, everyAll_text_iff, ih]
    | comment content => simp only [coalesce, everyAll_comment_iff, ih]

end Every

end BinaryXml.Node
