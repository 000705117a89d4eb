import BinaryXml.Proofs.Document.Paths
import BinaryXml.Proofs.Stream.Recognition

/-! # Places in a stream

* `Segment`: the front of a content, from which `content_append` goes on to its end.
* `ElementAt` and `StreamAt`: an element or a stream in which the bytes at the end of a path have
  some form.
* `stream_of_streamAt` and `at?_of_streamAt`: such a stream has a document, in which that element is
  at the end of the same path.
-/

namespace BinaryXml

set_option autoImplicit false

namespace Grammar

open Decoding (Context)

theorem elements_of_children {whitespace : Whitespace} {pieces children : List Node}
    (made : Children whitespace pieces children) : Node.elements children = Node.elements pieces := by
  induction made with
  | nil => rfl
  | @node node _ _ notText _ ih =>
    cases node with
    | element child => rw [Node.elements_element, Node.elements_element, ih]
    | text content => exact absurd rfl (notText content)
    | comment content => rw [Node.elements_comment, Node.elements_comment, ih]
  | texts _ _ _ ih =>
    rw [Node.elements_append, Node.elements_append, Node.elements_texts, Node.elements_texts, ih]

/-! ## Segments -/

/-- The front of the content of an element at some depth, with its pieces. -/
inductive Segment (context : Context) (depth : Nat) :
    Pages → Bytes → List Node → Pages → Prop
  | nil {pages : Pages} : Segment context depth pages [] [] pages
  | switchPage {pages last : Pages} {page : UInt8} {bytes : Bytes} {pieces : List Node}
      (rest : Segment context depth ⟨page, pages.attributes⟩ bytes pieces last) :
      Segment context depth pages (Code.switchPage :: page :: bytes) pieces last
  | string {pages last : Pages} {kind : StringToken} {operand bytes : Bytes} {text : String}
      {pieces : List Node} (first : Operand context kind operand text)
      (rest : Segment context depth pages bytes pieces last) :
      Segment context depth pages (kind.code :: (operand ++ bytes)) (.text text :: pieces) last
  | element {pages next last : Pages} {bytes others : Bytes} {child : Element} {pieces : List Node}
      (first : IsElement context (depth + 1) pages bytes child next)
      (rest : Segment context depth next others pieces last) :
      Segment context depth pages (bytes ++ others) (.element child :: pieces) last

section Content
variable {context : Context} {depth : Nat} {pages next middle last : Pages}

theorem content_element {bytes others : Bytes} {child : Element} {pieces : List Node}
    (first : IsElement context (depth + 1) pages bytes child next)
    (rest : Content context depth next others pieces last) :
    Content context depth pages (bytes ++ others) (.element child :: pieces) last := by
  cases first with
  | empty start flag => exact .empty start flag rest
  | nested start flag content made =>
    rw [List.cons_append, List.append_assoc]
    exact .nested start flag content made rest

theorem content_append {front back : Bytes} {parts others : List Node}
    (h : Segment context depth pages front parts middle)
    (rest : Content context depth middle back others last) :
    Content context depth pages (front ++ back) (parts ++ others) last := by
  induction h with
  | nil => exact rest
  | switchPage _ ih => exact .switchPage (ih rest)
  | string first _ ih =>
    rw [List.cons_append, List.append_assoc]
    exact .string first (ih rest)
  | element first _ ih =>
    rw [List.append_assoc]
    exact content_element first (ih rest)

end Content

theorem segment_append {context : Context} {depth : Nat} {pages middle last : Pages}
    {front back : Bytes} {parts others : List Node}
    (h : Segment context depth pages front parts middle)
    (rest : Segment context depth middle back others last) :
    Segment context depth pages (front ++ back) (parts ++ others) last := by
  induction h with
  | nil => exact rest
  | switchPage _ ih => exact .switchPage (ih rest)
  | string first _ ih =>
    rw [List.cons_append, List.append_assoc]
    exact .string first (ih rest)
  | element first _ ih =>
    rw [List.append_assoc]
    exact .element first (ih rest)

/-! ## Forms of an element -/

/-- A form that an element may have: its depth, the code pages before it, its bytes, the element,
and the code pages behind it. -/
abbrev ElementForm := Nat → Pages → Bytes → Element → Pages → Prop

/-- The element at the end of a path has some form. -/
inductive ElementAt (context : Context) (form : ElementForm) : List Nat → ElementForm
  | here {depth : Nat} {pages last : Pages} {bytes : Bytes} {root : Element}
      (found : form depth pages bytes root last) :
      ElementAt context form [] depth pages bytes root last
  | inside {path : List Nat} {depth : Nat} {pages next middle after last : Pages} {token : UInt8}
      {front before bytes behind : Bytes} {head child : Element} {parts others children : List Node}
      (start : Head context depth pages token front head next)
      (flag : token &&& Code.hasContent ≠ 0)
      (segment : Segment context depth next before parts middle)
      (found : ElementAt context form path (depth + 1) middle bytes child after)
      (rest : Content context depth after behind others last)
      (made : Children context.whitespace (parts ++ .element child :: others) children) :
      ElementAt context form ((Node.elements parts).length :: path) depth pages
        (token :: (front ++ (before ++ (bytes ++ behind)))) { head with children } last

/-- The same for a body. -/
inductive BodyAt (context : Context) (form : ElementForm) (path : List Nat) :
    UInt8 → Bytes → Element → Prop
  | switchPage {old new : UInt8} {bytes : Bytes} {root : Element}
      (rest : BodyAt context form path new bytes root) :
      BodyAt context form path old (Code.switchPage :: new :: bytes) root
  | root {page : UInt8} {bytes : Bytes} {root : Element} {last : Pages}
      (found : ElementAt context form path 1 ⟨page, 0⟩ bytes root last) :
      BodyAt context form path page bytes root

/-- A stream in which the element at the end of a path has some form, and its document. -/
inductive StreamAt (options : DecodeOptions) (form : Context → ElementForm) (path : List Nat) :
    Bytes → Document → Prop
  | mk {header : Header} {front back : Bytes} {root : Element} (start : HeaderForm header front)
      (body : BodyAt (Context.of options header) (form (Context.of options header)) path 0 back root) :
      StreamAt options form path (front ++ back) ⟨root⟩

section Places
variable {context : Context} {form : ElementForm} {path : List Nat}

theorem isElement_of_elementAt {depth : Nat} {pages last : Pages} {bytes : Bytes} {root : Element}
    (hform : ∀ {depth pages bytes root last}, form depth pages bytes root last →
      IsElement context depth pages bytes root last)
    (h : ElementAt context form path depth pages bytes root last) :
    IsElement context depth pages bytes root last := by
  induction h with
  | here found => exact hform found
  | inside start flag segment _ rest made ih =>
    exact .nested start flag (content_append segment (content_element ih rest)) made

theorem at?_of_elementAt {depth : Nat} {pages last : Pages} {bytes : Bytes} {root : Element}
    (h : ElementAt context form path depth pages bytes root last) :
    ∃ depth pages bytes element last, form depth pages bytes element last ∧
      root.at? path = some element := by
  induction h with
  | here found => exact ⟨_, _, _, _, _, found, rfl⟩
  | inside _ _ _ _ _ made ih =>
    obtain ⟨depth, pages, bytes, element, last, found, hat⟩ := ih
    refine ⟨depth, pages, bytes, element, last, found, ?_⟩
    rw [Element.at?_cons_of_children (elements_of_children made), hat]

theorem body_of_bodyAt {page : UInt8} {bytes : Bytes} {root : Element}
    (hform : ∀ {depth pages bytes root last}, form depth pages bytes root last →
      IsElement context depth pages bytes root last)
    (h : BodyAt context form path page bytes root) : Body context page bytes root := by
  induction h with
  | switchPage _ ih => exact .switchPage ih
  | root found => exact .root (isElement_of_elementAt hform found)

theorem at?_of_bodyAt {page : UInt8} {bytes : Bytes} {root : Element}
    (h : BodyAt context form path page bytes root) :
    ∃ depth pages bytes element last, form depth pages bytes element last ∧
      root.at? path = some element := by
  induction h with
  | switchPage _ ih => exact ih
  | root found => exact at?_of_elementAt found

end Places

section Streams
variable {options : DecodeOptions} {form : Context → ElementForm} {path : List Nat} {stream : Bytes}
  {document : Document}

theorem stream_of_streamAt
    (hform : ∀ {context depth pages bytes root last}, form context depth pages bytes root last →
      IsElement context depth pages bytes root last)
    (h : StreamAt options form path stream document) : Stream options stream document := by
  cases h with
  | mk start body => exact .mk start (body_of_bodyAt hform body)

theorem at?_of_streamAt (h : StreamAt options form path stream document) :
    ∃ header depth pages bytes element last,
      form (Context.of options header) depth pages bytes element last ∧
        document.root.at? path = some element := by
  cases h with
  | @mk header _ _ _ _ body => exact ⟨header, at?_of_bodyAt body⟩

end Streams

end Grammar

end BinaryXml
