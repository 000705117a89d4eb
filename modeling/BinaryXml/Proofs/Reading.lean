import BinaryXml.Proofs.Document.Equality
import BinaryXml.Proofs.Document.Joined
import BinaryXml.Proofs.Stream.RoundTrip
import BinaryXml.Proofs.Stream.Settled
import BinaryXml.Proofs.Xml.Depth

/-! # The trees that are read

* `joined_of_outside`: the texts of a document that was XML are in one piece.
* `asRead_of_settled`: so are those of a document that was a stream, which has no comments, no
  namespace without the tag, and no blank characters around its texts if these are taken away.
* `joined_of_read`: whatever was read is in this form.
-/

namespace BinaryXml

open Node (EveryAll Joined everyAll_element_iff everyAll_text_iff)

set_option autoImplicit false

/-! ## Texts -/

namespace Parsing

section Joined
variable {context : Context} {scope : Scope} {depth : Nat} {text rest : Bytes}

/-- The texts of an element and of every element inside are in one piece. -/
abbrev JoinedInside (root : Element) : Prop := root.Every fun element => Joined element.children

theorem joined_of_startTag {tag : Tag} {element : Element}
    (h : startTag context scope depth tag = .ok element) : JoinedInside element := by
  obtain ⟨-, name, uri, list, -, -, -, -, rfl⟩ := startTag_eq_ok_iff.mp h
  exact Element.every_iff.mpr ⟨Node.joined_nil, by rw [EveryAll]; trivial⟩

theorem joined_close (element : Element) {pieces : List Node}
    (h : EveryAll (fun element => Joined element.children) pieces) :
    JoinedInside (close element pieces) :=
  Element.every_iff.mpr ⟨Node.joined_coalesce pieces, Node.everyAll_coalesce.mpr h⟩

theorem joined_of_content {opened : Open} {nodes : List Node}
    (h : Content context scope depth opened text nodes rest) :
    EveryAll (fun element => Joined element.children) nodes := by
  induction h with
  | @leaf _ _ _ _ _ _ piece node nodes _ single _ ih =>
    cases node with
    | element child => exact absurd single (leaf?_ne_element child)
    | text data => exact everyAll_text_iff.mpr ih
    | comment data => exact Node.everyAll_comment_iff.mpr ih
  | declaration _ _ ih => exact ih
  | closing =>
    rw [EveryAll]
    trivial
  | empty _ _ start _ ih => exact everyAll_element_iff.mpr ⟨joined_of_startTag start, ih⟩
  | opening _ _ _ _ _ ihContent ih => exact everyAll_element_iff.mpr ⟨joined_close _ ihContent, ih⟩

theorem joined_of_isElement {element : Element}
    (h : IsElement context scope depth text element rest) : JoinedInside element := by
  cases h with
  | empty _ _ start => exact joined_of_startTag start
  | opening _ _ _ content => exact joined_close _ (joined_of_content content)

theorem joined_of_outside {element : Element} (h : Outside context none text element) :
    JoinedInside element := by
  obtain ⟨_, _, isElement⟩ := exists_isElement_of_outside h
  exact joined_of_isElement isElement

end Joined

end Parsing

/-! ## Streams -/

/-- An element as a stream has it in some language: its namespace is the one of a code page with its
tag, there are no comments, and the texts are in one piece. Without its white space no text starts
or ends with a blank character. -/
structure Element.AsRead (language : Language) (whitespace : Whitespace) (element : Element) :
    Prop where
  joined : Joined element.children
  plain : ∀ content, .comment content ∉ element.children
  tag : ∀ space, element.uri = some space → language.HasTag space element.name
  trimmed : whitespace = .strip → ∀ content, .text content ∈ element.children → content ≠ "" ∧
    (∀ c, content.toList.head? = some c → Blank.isBlank c = false) ∧
      ∀ c, content.toList.getLast? = some c → Blank.isBlank c = false

section AsRead
variable {language : Language} {whitespace : Whitespace}

theorem joined_of_settledAll {nodes : List Node} (h : SettledAll language whitespace nodes) :
    Joined nodes := by
  induction nodes with
  | nil => exact Node.joined_nil
  | cons node rest ih =>
    cases node with
    | element child =>
      rw [settledAll_element_iff] at h
      exact Node.joined_element_iff.mpr (ih h.2)
    | text content =>
      rw [settledAll_text_iff] at h
      obtain ⟨hkept, hhead, hrest⟩ := h
      exact Node.joined_text_iff.mpr ⟨(Whitespace.apply_of_apply hkept).1, hhead, ih hrest⟩
    | comment content => exact (not_settledAll_comment h).elim

theorem mem_of_settledAll {nodes : List Node} (h : SettledAll language whitespace nodes)
    {node : Node} (hmem : node ∈ nodes) : (∃ child, node = .element child) ∨
      ∃ content, node = .text content ∧ whitespace.apply content = some content := by
  induction nodes with
  | nil => cases hmem
  | cons first rest ih =>
    cases first with
    | element child =>
      rw [settledAll_element_iff] at h
      rcases List.mem_cons.mp hmem with rfl | hmem
      · exact .inl ⟨child, rfl⟩
      · exact ih h.2 hmem
    | text content =>
      rw [settledAll_text_iff] at h
      rcases List.mem_cons.mp hmem with rfl | hmem
      · exact .inr ⟨content, rfl, h.1⟩
      · exact ih h.2.2 hmem
    | comment content => exact (not_settledAll_comment h).elim

mutual

theorem asRead_of_settled : ∀ root : Element, Settled language whitespace root →
    root.Every (Element.AsRead language whitespace)
  | ⟨name, uri, attributes, children⟩, h => by
    rw [Settled] at h
    obtain ⟨htag, hchildren⟩ := h
    refine Element.every_iff.mpr ⟨⟨joined_of_settledAll hchildren, ?_, htag, ?_⟩,
      asReadAll_of_settledAll children hchildren⟩
    · intro content hmem
      rcases mem_of_settledAll hchildren hmem with ⟨child, hchild⟩ | ⟨text, htext, -⟩
      · cases hchild
      · cases htext
    · rintro rfl content hmem
      rcases mem_of_settledAll hchildren hmem with ⟨child, hchild⟩ | ⟨text, htext, hkept⟩
      · cases hchild
      · cases htext
        obtain ⟨hne, htrim⟩ := Whitespace.strip_apply_iff.mp hkept
        exact ⟨hne, Blank.trim_eq_self_iff.mp htrim.symm⟩

theorem asReadAll_of_settledAll : ∀ nodes : List Node, SettledAll language whitespace nodes →
    EveryAll (Element.AsRead language whitespace) nodes
  | [], _ => by
    rw [EveryAll]
    trivial
  | .element child :: rest, h => by
    rw [settledAll_element_iff] at h
    exact everyAll_element_iff.mpr ⟨asRead_of_settled child h.1, asReadAll_of_settledAll rest h.2⟩
  | .text content :: rest, h => by
    rw [settledAll_text_iff] at h
    exact everyAll_text_iff.mpr (asReadAll_of_settledAll rest h.2.2)
  | .comment content :: rest, h => (not_settledAll_comment h).elim

end

end AsRead

/-! ## Documents -/

/-- Whatever is read, XML or a stream, has its texts in one piece and no more levels than are
allowed. -/
theorem joined_of_read {language : Language} {maxDepth : Nat} {options : DecodeOptions}
    {input : Bytes} {document : Document} :
    (parseDocument language maxDepth input = .ok document → document.root.levels ≤ maxDepth ∧
      document.root.Every fun element => Joined element.children) ∧
    (decodeDocument options input = .ok document → document.root.levels ≤ options.maxDepth ∧
      document.root.Every (Element.AsRead options.language options.whitespace)) := by
  constructor
  · intro h
    exact ⟨levels_le_of_parseDocument h, Parsing.joined_of_outside (parseDocument_eq_ok_iff.mp h)⟩
  · intro h
    obtain ⟨hsettled, hlevels⟩ := settled_of_stream (Decoding.stream_of_run h)
    exact ⟨hlevels, asRead_of_settled _ hsettled⟩

/-- A text whose character data comes in pieces, with an empty one and a comment between. -/
def piecewiseText : Bytes :=
  Utf8.encode "<Sync>a<![CDATA[]]>&#98;<!--c-->&lt;<Add><![CDATA[]]></Add></Sync>"

def piecewise : Document :=
  ⟨⟨"Sync", none, [], [.text "ab", .comment "c", .text "<", .element ⟨"Add", none, [], []⟩]⟩⟩

/-- A stream whose character data comes in pieces, blank ones at the ends: a string, a character
reference, data, and a change of page between. -/
def piecewiseStream : Bytes := [
  0x03, 0x01, 0x6A, 0x00, 0x45, 0x03, 0x20, 0x00, 0x02, 0x20, 0xC3, 0x01, 0x00, 0x00, 0x00, 0x03,
  0x20, 0x00, 0x07, 0x03, 0x20, 0x00, 0x01]

def piecewiseDecoded : Document :=
  ⟨⟨"Sync", some "AirSync:", [], [.text "AA==", .element ⟨"Add", some "AirSync:", [], []⟩]⟩⟩

theorem joined_of_read_piecewise :
    (parseDocument ActiveSync.language 2 piecewiseText = .ok piecewise ∧
      piecewise.root.levels ≤ 2 ∧
      piecewise.root.Every fun element => Joined element.children) ∧
    (decodeDocument { whitespace := .strip, maxDepth := 2 } piecewiseStream = .ok piecewiseDecoded ∧
      piecewiseDecoded.root.levels ≤ 2 ∧
      piecewiseDecoded.root.Every (Element.AsRead ActiveSync.language .strip)) := by
  have hparse : parseDocument ActiveSync.language 2 piecewiseText = .ok piecewise := by
    decide +kernel
  have hdecode : decodeDocument { whitespace := .strip, maxDepth := 2 } piecewiseStream =
      .ok piecewiseDecoded := by
    decide +kernel
  have hread := @joined_of_read ActiveSync.language 2 { whitespace := .strip, maxDepth := 2 }
  exact ⟨⟨hparse, hread.1 hparse⟩, hdecode, hread.2 hdecode⟩

end BinaryXml
