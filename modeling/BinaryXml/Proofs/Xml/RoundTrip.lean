import BinaryXml.Proofs.Document.Equality
import BinaryXml.Proofs.Stream.RoundTrip
import BinaryXml.Proofs.Xml.Transcoding

/-! # Documents that are written as XML and read again

* `Element.resolved`: a tree with the namespaces that its written declarations give.
* `Element.Inherits`: what these namespaces have to do with the ones before.
* `parseDocument_of_writeDocument`: what is written of a document is read as the resolved one.
-/

namespace BinaryXml

open Writing

set_option autoImplicit false

/-! ## Namespaces that hold -/

mutual

/-- An element with the namespace that was declared last where it stands, and so on inside. -/
def Element.resolved (scope : Option String) : Element → Element
  | ⟨name, uri, attributes, children⟩ =>
    ⟨name, innerScope scope uri, attributes, Node.resolvedAll (innerScope scope uri) children⟩

def Node.resolvedAll (scope : Option String) : List Node → List Node
  | [] => []
  | .element child :: rest => .element (child.resolved scope) :: Node.resolvedAll scope rest
  | .text content :: rest => .text content :: Node.resolvedAll scope rest
  | .comment content :: rest => .comment content :: Node.resolvedAll scope rest

end

mutual

/-- A tree has the names, attributes, texts and comments of another one. An element that had a
namespace has the same one in some spelling; one that had none has that of the element around
it. -/
def Element.Inherits (scope : Option String) : Element → Element → Prop
  | ⟨name, uri, attributes, children⟩, found =>
    found.name = name ∧ found.attributes = attributes ∧
      (uri = none → found.uri = scope) ∧
      (∀ space, uri = some space →
        ∃ spelt, found.uri = some spelt ∧ Namespace.same spelt space = true) ∧
      Node.InheritsAll found.uri children found.children

def Node.InheritsAll (scope : Option String) : List Node → List Node → Prop
  | [], found => found = []
  | .element child :: rest, found => ∃ child' rest', found = .element child' :: rest' ∧
      child.Inherits scope child' ∧ Node.InheritsAll scope rest rest'
  | .text content :: rest, found =>
    ∃ rest', found = .text content :: rest' ∧ Node.InheritsAll scope rest rest'
  | .comment content :: rest, found =>
    ∃ rest', found = .comment content :: rest' ∧ Node.InheritsAll scope rest rest'

end

theorem innerScope_none (scope : Option String) : innerScope scope none = scope := rfl

theorem exists_innerScope (scope : Option String) (space : String) :
    ∃ spelt, innerScope scope (some space) = some spelt ∧ Namespace.same spelt space = true := by
  unfold innerScope declared? declares
  rw [Option.bind_some]
  cases scope with
  | none => exact ⟨space, rfl, by simp [Namespace.same]⟩
  | some outer =>
    cases hsame : Namespace.same outer space with
    | true => exact ⟨outer, by simp [hsame], hsame⟩
    | false => exact ⟨space, by simp [hsame], by simp [Namespace.same]⟩

mutual

theorem inherits_resolved (scope : Option String) :
    ∀ root : Element, root.Inherits scope (root.resolved scope)
  | ⟨name, uri, attributes, children⟩ => by
    rw [Element.resolved, Element.Inherits]
    refine ⟨rfl, rfl, ?_, ?_, inheritsAll_resolvedAll (innerScope scope uri) children⟩
    · rintro rfl
      exact innerScope_none scope
    · rintro space rfl
      exact exists_innerScope scope space

theorem inheritsAll_resolvedAll (scope : Option String) :
    ∀ nodes : List Node, Node.InheritsAll scope nodes (Node.resolvedAll scope nodes)
  | [] => by rw [Node.InheritsAll, Node.resolvedAll]
  | .element child :: rest => by
    rw [Node.InheritsAll, Node.resolvedAll]
    exact ⟨_, _, rfl, inherits_resolved scope child, inheritsAll_resolvedAll scope rest⟩
  | .text content :: rest => by
    rw [Node.InheritsAll, Node.resolvedAll]
    exact ⟨_, rfl, inheritsAll_resolvedAll scope rest⟩
  | .comment content :: rest => by
    rw [Node.InheritsAll, Node.resolvedAll]
    exact ⟨_, rfl, inheritsAll_resolvedAll scope rest⟩

end

/-! ## Namespaces as they are written -/

/-- A namespace that is written as it is. -/
def IsPlainUri (charset : Charset) (space : String) : Prop :=
  IsLiteral space ∧ Encodable charset space

section Spaces
variable {charset : Charset}

theorem escape_of_plain {space : String} (h : IsPlainUri charset space) (inAttribute : Bool) :
    escape charset inAttribute space = space := by
  obtain ⟨⟨-, hliteral⟩, hencodable⟩ := h
  have hchar (c : Char) (hc : c ∈ space.toList) : escapeChar charset inAttribute c = [c] := by
    have hplain := hliteral c hc
    simp only [List.mem_cons, not_or] at hplain
    obtain ⟨hamp, hlt, hgt, hquot, hapos, -⟩ := hplain
    simp [escapeChar, escapeMarkup, escapeForeign, hamp, hlt, hgt, hquot, hapos, hencodable c hc]
  refine String.toList_inj.mp ?_
  rw [toList_escape, List.flatMap_congr hchar, List.flatMap_singleton']

theorem readUri_of_plain {outer : Option String}
    (h : ∀ space, outer = some space → IsPlainUri charset space) :
    readUri charset outer = outer := by
  cases outer with
  | none => rfl
  | some space =>
    have hspace := h space rfl
    unfold readUri
    rw [Option.map_some, escape_of_plain hspace, Option.filter_some,
      if_pos (by simpa using hspace.1.1)]

theorem isPlainUri_innerScope {outer uri : Option String}
    (houter : ∀ space, outer = some space → IsPlainUri charset space)
    (huri : ∀ space, uri = some space → IsPlainUri charset space) :
    ∀ space, innerScope outer uri = some space → IsPlainUri charset space := by
  intro space hspace
  rcases shown_cases outer uri [] with ⟨-, hinner⟩ | ⟨value, hvalue, -, hinner⟩
  · exact houter space (hinner ▸ hspace)
  · rw [hinner] at hspace
    cases hspace
    exact huri space hvalue

mutual

/-- Namespaces that are written as they are are read as they are. -/
theorem readAs_eq_resolved : ∀ {root : Element} {outer : Option String},
    root.Every (fun element => ∀ space, element.uri = some space → IsPlainUri charset space) →
      (∀ space, outer = some space → IsPlainUri charset space) →
        root.readAs charset outer = root.resolved outer
  | ⟨_, _, _, _⟩, outer, h, houter => by
    rw [Element.Every] at h
    have hinner := isPlainUri_innerScope houter h.1
    rw [Element.readAs, Element.resolved, readUri_of_plain hinner,
      readAllAs_eq_resolvedAll h.2 hinner]

theorem readAllAs_eq_resolvedAll : ∀ {nodes : List Node} {outer : Option String},
    Node.EveryAll (fun element => ∀ space, element.uri = some space → IsPlainUri charset space)
        nodes →
      (∀ space, outer = some space → IsPlainUri charset space) →
        Node.readAllAs charset outer nodes = Node.resolvedAll outer nodes
  | [], _, _, _ => by rw [Node.readAllAs, Node.resolvedAll]
  | .element child :: rest, outer, h, houter => by
    rw [Node.EveryAll] at h
    rw [Node.readAllAs, Node.resolvedAll, readAs_eq_resolved h.1 houter,
      readAllAs_eq_resolvedAll h.2 houter]
  | .text content :: rest, outer, h, houter => by
    rw [Node.EveryAll] at h
    rw [Node.readAllAs, Node.resolvedAll, readAllAs_eq_resolvedAll h houter]
  | .comment content :: rest, outer, h, houter => by
    rw [Node.EveryAll] at h
    rw [Node.readAllAs, Node.resolvedAll, readAllAs_eq_resolvedAll h houter]

end

end Spaces

/-! ## Round trips -/

/-- A document that can be written is read again with the namespaces that its declarations give. -/
theorem parseDocument_of_writeDocument {options : DecodeOptions} {document : Document}
    {maxDepth : Nat} (compact : options.form = .compact)
    (presentable : document.root.Presentable options.charset (IsPlainUri options.charset))
    (neat : document.root.Neat options.charset) (declarable : options.language.Declarable)
    (hlatin1 : options.charset = .latin1 → options.language.DeclarableIn .latin1)
    (hlevels : document.root.levels ≤ maxDepth) :
    ∃ bytes, writeDocument options document = .ok bytes ∧
      parseDocument options.language maxDepth (options.charset.toUtf8 bytes) =
        .ok ⟨document.root.resolved none⟩ ∧
      document.root.Inherits none (document.root.resolved none) := by
  obtain ⟨bytes, hbytes, hutf8⟩ :=
    exists_writeDocument_compact compact (namesEncodable_of_presentable presentable) hlatin1
  refine ⟨bytes, hbytes, ?_, inherits_resolved none document.root⟩
  rw [hutf8, parseDocument_prolog declarable (readable_of_presentable presentable) neat,
    checkDoctype_doctypeData, readAs_eq_resolved (presentable.imp fun _ tag => tag.uri) (by simp)]
  exact if_pos hlevels

/-- A document with characters that need references, a comment, and a namespace in two
spellings. -/
def mixedDocument : Document :=
  ⟨⟨"a", some "U:", [⟨"k", "\"€"⟩], [
    .text "é<€", .comment "c", .element ⟨"b", some "u", [], []⟩, .element ⟨"c", none, [], []⟩]⟩⟩

theorem parseDocument_mixedDocument :
    mixedDocument.root.Presentable .latin1 (IsPlainUri .latin1) ∧
      mixedDocument.root.Neat .latin1 ∧ ∃ bytes,
        writeDocument { charset := .latin1 } mixedDocument = .ok bytes ∧
        parseDocument ActiveSync.language 2 (Charset.latin1.toUtf8 bytes) =
          .ok ⟨mixedDocument.root.resolved none⟩ ∧
        mixedDocument.root.Inherits none (mixedDocument.root.resolved none) := by
  have hpresentable : mixedDocument.root.Presentable .latin1 (IsPlainUri .latin1) := by
    have hupper : IsPlainUri .latin1 "U:" := ⟨⟨by decide, by decide⟩, by unfold Encodable; decide⟩
    have hlower : IsPlainUri .latin1 "u" := ⟨⟨by decide, by decide⟩, by unfold Encodable; decide⟩
    simp [mixedDocument, Element.Presentable, Element.Every, Node.EveryAll,
      Element.tagPresentable_iff, hupper, hlower, Encodable]
    decide
  have hneat : mixedDocument.root.Neat .latin1 := by
    simp [mixedDocument, Element.Neat, Node.NeatAll, IsComment]
    decide
  have hlatin1 : ActiveSync.language.DeclarableIn .latin1 := by
    unfold Language.DeclarableIn Encodable
    decide
  have hlevels : mixedDocument.root.levels ≤ 2 := by
    simp [mixedDocument, Element.levels, Node.levelsAll]
  let options : DecodeOptions := { charset := .latin1 }
  have hcompact : options.form = .compact := rfl
  exact ⟨hpresentable, hneat, parseDocument_of_writeDocument hcompact hpresentable hneat
    ActiveSync.language_declarable (fun _ => hlatin1) hlevels⟩

/-- A language whose public identifier does not belong to ISO-8859-1. -/
def greekLanguage : Language :=
  { name := "greek", publicId := none, fpi := "Ω", dtd := "d", doctypeRoot := "a", pages := [] }

/-- The smallest document. -/
def loneDocument : Document := ⟨⟨"a", none, [], []⟩⟩

theorem writeDocument_greekLanguage :
    loneDocument.root.Presentable .latin1 (IsPlainUri .latin1) ∧ loneDocument.root.Neat .latin1 ∧
      greekLanguage.Declarable ∧ loneDocument.root.levels ≤ 1 ∧
      writeDocument { language := greekLanguage, charset := .latin1 } loneDocument =
        .error (.decoding (.notLatin1 'Ω')) := by
  refine ⟨?_, ?_, ?_, ?_, ?_⟩
  · simp [loneDocument, Element.Presentable, Element.Every, Node.EveryAll,
      Element.tagPresentable_iff, Encodable]
    decide
  · simp [loneDocument, Element.Neat, Node.NeatAll]
  · unfold Language.Declarable IsLiteral
    decide
  · simp [loneDocument, Element.levels, Node.levelsAll]
  · decide +kernel

end BinaryXml
