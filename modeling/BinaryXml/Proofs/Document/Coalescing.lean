import BinaryXml.Document.Basic

/-! # Joining texts

* `Node.consText_append`: data may be put in front of nodes piece by piece.
* `Node.coalesce_texts`: texts that follow each other become one.
-/

namespace BinaryXml

set_option autoImplicit false

namespace Node

@[simp] theorem consText_empty (nodes : List Node) : consText "" nodes = nodes := rfl

theorem consText_append (first second : String) (nodes : List Node) :
    consText (first ++ second) nodes = consText first (consText second nodes) := by
  by_cases hfirst : first = ""
  · subst hfirst
    rw [String.empty_append, consText_empty]
  · by_cases hsecond : second = ""
    · subst hsecond
      rw [String.append_empty, consText_empty]
    · have happend : ¬ first ++ second = "" := fun h => hfirst (String.append_eq_empty_iff.mp h).1
      unfold consText
      simp only [String.isEmpty_iff, hfirst, hsecond, happend, if_false]
      cases nodes with
      | nil => rfl
      | cons node rest => cases node <;> simp [String.append_assoc]

theorem coalesce_texts (run : List String) (pieces : List Node) :
    coalesce (run.map .text ++ pieces) = consText (String.join run) (coalesce pieces) := by
  induction run with
  | nil => rfl
  | cons text run ih =>
    rw [String.join_cons, consText_append, ← ih]
    rfl

theorem head?_coalesce {pieces : List Node} (h : ∀ text, pieces.head? ≠ some (.text text)) :
    ∀ text, (coalesce pieces).head? ≠ some (.text text) := by
  intro text
  cases pieces with
  | nil => simp [coalesce]
  | cons node rest =>
    cases node with
    | text content => exact absurd rfl (h content)
    | element child => simp [coalesce]
    | comment content => simp [coalesce]

theorem consText_of_head? {text : String} {nodes : List Node} (hne : text ≠ "")
    (h : ∀ text, nodes.head? ≠ some (.text text)) : consText text nodes = .text text :: nodes := by
  unfold consText
  rw [String.isEmpty_eq_false_iff.mpr hne]
  cases nodes with
  | nil => rfl
  | cons node rest =>
    cases node with
    | text content => exact absurd rfl (h content)
    | element child => rfl
    | comment content => rfl

/-- Texts that are not all empty become one text. -/
theorem coalesce_of_join {run : List String} {chars : List Char}
    (h : String.join run = String.ofList chars) (hne : chars ≠ []) :
    coalesce (run.map .text) = [.text (String.ofList chars)] := by
  have hcoalesce := coalesce_texts run []
  rw [List.append_nil, h] at hcoalesce
  rw [hcoalesce]
  exact consText_of_head? (by simpa using hne) (by simp [coalesce])

end Node

end BinaryXml
