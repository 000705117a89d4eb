import BinaryXml.Proofs.Xml.Places
import BinaryXml.Proofs.Xml.Readable

/-! # Elements with two tags in an XML text

* `Slot`: the bytes of an element with a start tag and an end tag, and those around it.
* `IsSingle`: an element is written as a single tag.
* `exists_slot`: every element of a document is written in one of these ways.
* `Slot.Site.reads_iff`: what is read when other bytes stand between the tags.
* `Slot.Site.reads_attributeOf_iff`: what is read when the start tag has one more attribute.
-/

namespace BinaryXml

open Markup (quoteAfter)
open Parsing

set_option autoImplicit false

/-- An element that is written with a start tag and an end tag, and what stands around it. -/
structure Slot where
  front : Bytes
  tagName : Bytes
  attributes : Bytes
  inner : Bytes
  endName : Bytes
  back : Bytes

namespace Slot

/-- The end tag and what follows it. -/
def rest (slot : Slot) : Bytes :=
  0x3C :: 0x2F :: (slot.endName ++ 0x3E :: slot.back)

def element (slot : Slot) : Bytes :=
  0x3C :: (slot.tagName ++ slot.attributes ++ 0x3E ::
    (slot.inner ++ 0x3C :: 0x2F :: (slot.endName ++ [0x3E])))

def text (slot : Slot) : Bytes :=
  slot.front ++ (slot.element ++ slot.back)

/-- The tags are read as they are written. -/
structure Shape (slot : Slot) : Prop where
  begins : ∀ b, (slot.tagName ++ slot.attributes).head? = some b → b ≠ 0x21 ∧ b ≠ 0x2F ∧ b ≠ 0x3F
  quotes : quoteAfter none (slot.tagName ++ slot.attributes) = some none
  ends : (slot.tagName ++ slot.attributes).getLast? ≠ some 0x2F
  tag : Markup.tag (slot.tagName ++ slot.attributes) = ⟨slot.tagName, slot.attributes⟩
  endQuotes : quoteAfter none slot.endName = some none
  closing : Markup.closingName slot.endName = slot.tagName

/-- An element is read from its tags and from what stands between them, and other bytes may stand
in its place. -/
structure Site {α : Type} (context : Context) (scope inner : Scope) (depth : Nat) (head : Element)
    (pieces : List Node) (reads : Bytes → α → Prop) (put : Element → α) (slot : Slot) : Prop where
  shape : slot.Shape
  bindings : innerScope scope ⟨slot.tagName, slot.attributes⟩ = .ok inner
  start : startTag context inner depth ⟨slot.tagName, slot.attributes⟩ = .ok head
  content : Content context inner (depth + 1) ⟨slot.tagName, head.name⟩ (slot.inner ++ slot.rest)
    pieces slot.back
  encloses : Encloses context scope depth slot.front slot.back reads put

/-- The element at the end of a path is read from a single tag, and what else stands in the place
of this tag is read as the element at the end of the path. -/
structure IsSingle (language : Language) (maxDepth : Nat) (text : Bytes) (document : Document)
    (path : List Nat) (element : Element) : Prop where
  children : element.children = []
  place : ∃ scope depth front tag back, text = front ++ 0x3C :: (tag ++ 0x2F :: 0x3E :: back) ∧
    IsElement ⟨language, maxDepth⟩ scope depth (0x3C :: (tag ++ 0x2F :: 0x3E :: back)) element back ∧
    Encloses ⟨language, maxDepth⟩ scope depth front back
      (fun text document => parseDocument language maxDepth text = .ok document)
        (fun new => ⟨document.root.update (fun _ => new) path⟩)

theorem element_append (slot : Slot) : slot.element ++ slot.back =
    0x3C :: (slot.tagName ++ slot.attributes ++ 0x3E :: (slot.inner ++ slot.rest)) := by
  simp [element, rest]

section Shape
variable {slot : Slot} (shape : slot.Shape)
include shape

theorem Shape.starts : Starts (slot.element ++ slot.back)
    (.opening ⟨slot.tagName, slot.attributes⟩) (slot.inner ++ slot.rest) := by
  rw [element_append]
  refine ⟨List.cons_ne_nil _ _, ?_⟩
  rw [Markup.next_of_content shape.begins shape.quotes, tagPiece_of_getLast? shape.ends, shape.tag]

theorem Shape.starts_rest : Starts slot.rest (.closing slot.tagName) slot.back := by
  refine ⟨List.cons_ne_nil _ _, ?_⟩
  rw [rest, Markup.next_of_closing shape.endQuotes, shape.closing]

theorem Shape.content_rest_iff {context : Context} {scope : Scope} {depth : Nat} {name : String}
    {nodes : List Node} {last : Bytes} :
    Content context scope depth ⟨slot.tagName, name⟩ slot.rest nodes last ↔
      nodes = [] ∧ last = slot.back := by
  rw [content_closing_iff shape.starts_rest]
  exact and_iff_right rfl

end Shape

/-! ## One more attribute -/

section Attribute
variable {context : Context} {scope inner : Scope} {depth : Nat} {head : Element}
  {tagName attributes : Bytes} {key value : String}

/-- An attribute in front of the others. -/
def attributeOf (key value : String) : RawAttribute :=
  ⟨Utf8.encode key, Utf8.encode value⟩

theorem scan_attributeOf (plain : IsPlainName key) (hvalue : (0x22 : UInt8) ∉ Utf8.encode value) :
    AttributeList.scan ((attributeOf key value).bytes ++ attributes) =
      ⟨attributeOf key value :: (AttributeList.scan attributes).items,
        (AttributeList.scan attributes).complete⟩ :=
  scan_bytes (attributeOf key value) (isKey_of_plain plain) hvalue attributes

theorem innerScope_attributeOf (plain : IsPlainName key) (hkey : key ≠ "xmlns")
    (hvalue : (0x22 : UInt8) ∉ Utf8.encode value) :
    innerScope scope ⟨tagName, (attributeOf key value).bytes ++ attributes⟩ =
      innerScope scope ⟨tagName, attributes⟩ := by
  unfold innerScope
  dsimp only
  rw [scan_attributeOf plain hvalue]
  dsimp only
  rw [declare_cons, declareOne_of_isPlain scope (attributeOf key value)
    (isPlain_of_plain plain hkey)]
  rfl

/-- The attribute is read in front of the others, if its references can be resolved. -/
theorem attributes_attributeOf_iff {items : List RawAttribute} {list others : List Attribute}
    (plain : IsPlainName key) (hkey : key ≠ "xmlns") (hnew : key ∉ list.map (·.name))
    (hlist : Parsing.attributes [] items = .ok list) :
    Parsing.attributes [] (attributeOf key value :: items) = .ok others ↔
      ∃ resolved, Reference.unescape value = some resolved ∧ others = ⟨key, resolved⟩ :: list := by
  have hplain : Scope.isPlain (attributeOf key value).key = true := isPlain_of_plain plain hkey
  have hkeyText : utf8 (attributeOf key value).key = .ok key := utf8_encode key
  have hvalueText : utf8 (attributeOf key value).value = .ok value := utf8_encode value
  have hrest : Parsing.attributes [(attributeOf key value).key] items = .ok list := by
    refine attributes_of_seen hlist fun seen hseen => .inr ?_
    rw [List.mem_singleton.mp hseen]
    exact key_ne_of_notMem hlist hplain hnew
  rw [attributes_cons_eq_ok_iff]
  constructor
  · rintro ⟨-, ⟨hdeclares, -⟩ |
      ⟨-, text, resolved, first, found, htext, hresolved, hfirst, hfound, rfl⟩⟩
    · rw [hplain] at hdeclares
      cases hdeclares
    · rw [hvalueText] at htext
      rw [hkeyText] at hfirst
      rw [hrest] at hfound
      cases htext
      cases hfirst
      cases hfound
      exact ⟨resolved, hresolved, rfl⟩
  · rintro ⟨resolved, hresolved, rfl⟩
    exact ⟨List.not_mem_nil, .inr ⟨hplain, value, resolved, key, list, hvalueText, hresolved,
      hkeyText, hrest, rfl⟩⟩

/-- The element has the attribute in front of the others, if its references can be resolved. -/
theorem startTag_attributeOf_iff {new : Element}
    (start : startTag context inner depth ⟨tagName, attributes⟩ = .ok head)
    (plain : IsPlainName key) (hkey : key ≠ "xmlns") (hnew : key ∉ head.attributes.map (·.name))
    (hvalue : (0x22 : UInt8) ∉ Utf8.encode value) :
    startTag context inner depth ⟨tagName, (attributeOf key value).bytes ++ attributes⟩ = .ok new ↔
      ∃ resolved, Reference.unescape value = some resolved ∧
        new = { head with attributes := ⟨key, resolved⟩ :: head.attributes } := by
  obtain ⟨hdepth, name, uri, list, hname, huri, hlist, hcomplete, rfl⟩ :=
    startTag_eq_ok_iff.mp start
  dsimp only at hname huri hlist hcomplete hnew
  rw [startTag_eq_ok_iff]
  dsimp only
  rw [scan_attributeOf plain hvalue]
  constructor
  · rintro ⟨-, name', uri', others, hname', huri', hothers, -, rfl⟩
    rw [hname] at hname'
    rw [huri] at huri'
    cases hname'
    cases huri'
    obtain ⟨resolved, hresolved, rfl⟩ := (attributes_attributeOf_iff plain hkey hnew hlist).mp hothers
    exact ⟨resolved, hresolved, rfl⟩
  · rintro ⟨resolved, hresolved, rfl⟩
    exact ⟨hdepth, name, uri, _, hname, huri,
      (attributes_attributeOf_iff plain hkey hnew hlist).mpr ⟨resolved, hresolved, rfl⟩,
      hcomplete, rfl⟩

/-! ### The tag with the attribute -/

theorem bytes_attributeOf (key value : String) : (attributeOf key value).bytes =
    0x20 :: (Utf8.encode key ++ 0x3D :: 0x22 :: (Utf8.encode value ++ [0x22])) := rfl

theorem quoteAfter_attributeOf (plain : IsPlainName key)
    (hvalue : ∀ b ∈ Utf8.encode value, b ≠ 0x22 ∧ b ≠ 0x27 ∧ b ≠ 0x3E)
    (h : quoteAfter none (tagName ++ attributes) = some none) :
    quoteAfter none (tagName ++ ((attributeOf key value).bytes ++ attributes)) = some none := by
  rw [Markup.quoteAfter_append] at h ⊢
  obtain ⟨quote, hname, hattributes⟩ := Option.bind_eq_some_iff.mp h
  have hquote := Markup.isQuote_of_quoteAfter (by rintro _ ⟨⟩) hname
  have hkey : quoteAfter quote (Utf8.encode key) = some quote := by
    refine Markup.quoteAfter_of_plain quote (fun b hb => ?_) hquote
    have hspecial := (plain.2 b hb).2
    simp only [List.mem_cons, not_or] at hspecial
    simp [hspecial]
  have hitem : quoteAfter quote (attributeOf key value).bytes = some quote :=
    (Writing.quoteAfter_bytes (attributeOf key value) hvalue hquote).trans hkey
  rw [hname, Option.bind_some, Markup.quoteAfter_append, hitem, Option.bind_some, hattributes]

theorem getLast?_of_attributeOf
    (h : (tagName ++ ((attributeOf key value).bytes ++ attributes)).getLast? = some 0x2F) :
    (tagName ++ attributes).getLast? = some 0x2F := by
  rw [List.getLast?_append, List.getLast?_append, RawAttribute.bytes_concat,
    List.getLast?_concat] at h
  rw [List.getLast?_append]
  cases hattributes : attributes.getLast? with
  | some b =>
    rw [hattributes] at h
    exact h
  | none =>
    rw [hattributes] at h
    cases h

theorem tag_attributeOf (h : Markup.tag (tagName ++ attributes) = ⟨tagName, attributes⟩) :
    Markup.tag (tagName ++ ((attributeOf key value).bytes ++ attributes)) =
      ⟨tagName, (attributeOf key value).bytes ++ attributes⟩ := by
  have htag : tagName = (tagName ++ attributes).takeWhile (!Markup.isSpace ·) :=
    congrArg Tag.name h.symm
  have hname : ∀ b ∈ tagName, (!Markup.isSpace b) = true := by
    intro b hb
    rw [htag] at hb
    exact List.all_eq_true.mp List.all_takeWhile b hb
  unfold Markup.tag
  rw [List.takeWhile_append_of_pos hname, List.dropWhile_append_of_pos hname, bytes_attributeOf,
    List.cons_append, List.takeWhile_cons_of_neg (by decide),
    List.dropWhile_cons_of_neg (by decide), List.append_nil]

theorem Shape.attributeOf {slot : Slot} (shape : slot.Shape) (plain : IsPlainName key)
    (hvalue : ∀ b ∈ Utf8.encode value, b ≠ 0x22 ∧ b ≠ 0x27 ∧ b ≠ 0x3E) :
    Shape { slot with attributes := (attributeOf key value).bytes ++ slot.attributes } where
  begins := by
    intro b hb
    dsimp only at hb
    cases hempty : slot.tagName with
    | nil =>
      rw [hempty, bytes_attributeOf] at hb
      cases hb
      decide
    | cons first others =>
      rw [hempty] at hb
      refine shape.begins b ?_
      rw [hempty]
      exact hb
  quotes := quoteAfter_attributeOf plain hvalue shape.quotes
  ends := fun hlast => shape.ends (getLast?_of_attributeOf hlast)
  tag := tag_attributeOf shape.tag
  endQuotes := shape.endQuotes
  closing := shape.closing

end Attribute

/-! ## Every element -/

/-- The end tag is the last of the bytes that content takes. -/
theorem exists_endTag {context : Context} {scope : Scope} {depth : Nat} {opened : Open}
    {text last : Bytes} {nodes : List Node} (h : Content context scope depth opened text nodes last) :
    ∃ inner name, text = inner ++ 0x3C :: 0x2F :: (name ++ 0x3E :: last) ∧
      quoteAfter none name = some none ∧ Markup.closingName name = opened.tagName := by
  have hbehind {first text rest last : Bytes} {opened : Open} (htext : text = first ++ rest)
      (h : ∃ inner name, rest = inner ++ 0x3C :: 0x2F :: (name ++ 0x3E :: last) ∧
        quoteAfter none name = some none ∧ Markup.closingName name = opened.tagName) :
      ∃ inner name, text = inner ++ 0x3C :: 0x2F :: (name ++ 0x3E :: last) ∧
        quoteAfter none name = some none ∧ Markup.closingName name = opened.tagName := by
    obtain ⟨inner, name, hrest, hname⟩ := h
    exact ⟨first ++ inner, name, by rw [htext, hrest, List.append_assoc], hname⟩
  -- Only the last step closes the content; what the others take stands before its tag.
  induction h with
  | leaf starts _ _ ih =>
    obtain ⟨first, -, htext, -⟩ := starts.front
    exact hbehind htext ih
  | declaration starts _ ih =>
    obtain ⟨first, -, htext, -⟩ := starts.front
    exact hbehind htext ih
  | closing starts =>
    obtain ⟨hne, hnext⟩ := starts
    obtain ⟨b, text, rfl⟩ := List.exists_cons_of_ne_nil hne
    obtain ⟨name, htext, hquote, hname⟩ := Markup.exists_closing hnext
    exact ⟨[], name, htext, hquote, hname⟩
  | empty starts _ _ _ ih =>
    obtain ⟨first, -, htext, -⟩ := starts.front
    exact hbehind htext ih
  | opening starts _ _ content _ _ ih =>
    obtain ⟨first, -, htext, -⟩ := starts.front
    obtain ⟨inside, -, hinside, -⟩ := content_front content
    exact hbehind (by rw [htext, hinside, List.append_assoc]) ih

theorem exists_shape {text behind last : Bytes} {tag : Tag} {context : Context} {scope : Scope}
    {depth : Nat} {name : String} {pieces : List Node}
    (starts : Starts (0x3C :: text) (.opening tag) behind)
    (content : Content context scope depth ⟨tag.name, name⟩ behind pieces last) (front : Bytes) :
    ∃ slot : Slot, slot.front = front ∧ slot.back = last ∧ slot.element ++ last = 0x3C :: text ∧
      slot.Shape ∧ tag = ⟨slot.tagName, slot.attributes⟩ ∧ behind = slot.inner ++ slot.rest := by
  obtain ⟨inner, endName, rfl, endQuotes, closing⟩ := exists_endTag content
  obtain ⟨core, htext, begins, quotes, hpiece⟩ := Markup.exists_content starts.2 (.inr rfl)
  have htag : tag = Markup.tag core ∧ core.getLast? ≠ some 0x2F := by
    obtain ⟨core', final, rfl, rfl, ⟨rfl, hempty⟩ | ⟨rfl, -, hlast⟩⟩ := tagPiece_cases (.inr hpiece)
    · rw [hpiece] at hempty
      cases hempty
    · rw [List.append_nil] at hlast ⊢
      exact ⟨rfl, hlast⟩
  obtain ⟨rfl, hlast⟩ := htag
  have hcore : (Markup.tag core).name ++ (Markup.tag core).attributes = core :=
    List.takeWhile_append_dropWhile
  refine ⟨⟨front, (Markup.tag core).name, (Markup.tag core).attributes, inner, endName, last⟩,
    rfl, rfl, ?_, ?_, rfl, rfl⟩
  · refine (element_append _).trans ?_
    dsimp only
    rw [hcore, htext]
    rfl
  · rw [← hcore] at begins quotes hlast
    exact ⟨begins, quotes, hlast, by rw [hcore], endQuotes, closing⟩

/-- Every element of a document is a single tag, or it is written with two tags. -/
theorem exists_slot {language : Language} {maxDepth : Nat} {text : Bytes} {document : Document}
    {path : List Nat} {element : Element} (h : parseDocument language maxDepth text = .ok document)
    (hat : document.root.at? path = some element) :
    IsSingle language maxDepth text document path element ∨
    ∃ scope inner depth head pieces slot, slot.text = text ∧ element = close head pieces ∧
      Site ⟨language, maxDepth⟩ scope inner depth head pieces
        (fun text document => parseDocument language maxDepth text = .ok document)
          (fun new => ⟨document.root.update (fun _ => new) path⟩) slot := by
  obtain ⟨scope, depth, front, bytes, back, rfl, hbracket, isElement, encloses⟩ :=
    exists_place h hat
  obtain ⟨bytes, rfl⟩ := List.head?_eq_some_iff.mp hbracket
  have written := isElement
  cases written with
  | empty starts bindings start =>
    obtain ⟨core, htext, -, -, hpiece⟩ := Markup.exists_content starts.2 (.inl rfl)
    obtain ⟨tag, final, rfl, -, ⟨rfl, -⟩ | ⟨-, hopening, -⟩⟩ := tagPiece_cases (.inl hpiece)
    · obtain ⟨-, name, uri, list, -, -, -, -, rfl⟩ := startTag_eq_ok_iff.mp start
      have hbytes : 0x3C :: bytes ++ back = 0x3C :: (tag ++ 0x2F :: 0x3E :: back) := by
        rw [List.cons_append, ← List.append_eq, htext, List.append_assoc, List.singleton_append]
      rw [hbytes] at isElement ⊢
      exact .inl ⟨rfl, scope, depth, front, tag, back, rfl, isElement, encloses⟩
    · rw [hpiece] at hopening
      cases hopening
  | opening starts bindings start content =>
    obtain ⟨slot, rfl, rfl, htext, shape, rfl, rfl⟩ := exists_shape starts content front
    refine .inr ⟨scope, _, depth, _, _, slot, ?_, rfl, shape, bindings, start, content, encloses⟩
    rw [text, htext]
    rfl

/-! ## Other bytes between the tags, and in the start tag -/

/-- What is read with an element in its place, if it is known which elements its bytes are read
as. -/
theorem Shape.reads_iff {α β : Type} {context : Context} {scope : Scope} {depth : Nat}
    {reads : Bytes → α → Prop} {put : Element → α} {found : β → Prop} {slot : Slot}
    (shape : slot.Shape) (make : β → Element)
    (encloses : Encloses context scope depth slot.front slot.back reads put)
    (h : ∀ element behind, IsElement context scope depth (slot.element ++ slot.back) element behind ↔
      ∃ part, (found part ∧ behind = slot.back) ∧ element = make part) (result : α) :
    reads slot.text result ↔ ∃ part, found part ∧ result = put (make part) := by
  have fills : Fills context scope depth slot.element slot.back := by
    refine ⟨rfl, ⟨_, _, shape.starts, rfl⟩, fun element behind isElement => ?_⟩
    obtain ⟨part, ⟨-, hbehind⟩, -⟩ := (h element behind).mp isElement
    exact hbehind
  refine (encloses slot.element fills result).trans ?_
  constructor
  · rintro ⟨element, isElement, rfl⟩
    obtain ⟨part, ⟨hpart, -⟩, rfl⟩ := (h element slot.back).mp isElement
    exact ⟨part, hpart, rfl⟩
  · rintro ⟨part, hpart, rfl⟩
    exact ⟨make part, (h _ slot.back).mpr ⟨part, ⟨hpart, rfl⟩, rfl⟩, rfl⟩

namespace Site
variable {α : Type} {context : Context} {scope inner : Scope} {depth : Nat} {head : Element}
  {pieces : List Node} {reads : Bytes → α → Prop} {put : Element → α} {slot : Slot}

/-- Where other bytes stand between the tags, the element has other children. -/
theorem reads_iff (site : slot.Site context scope inner depth head pieces reads put) {bytes : Bytes}
    (found : List Node → Prop)
    (h : ∀ nodes last, Content context inner (depth + 1) ⟨slot.tagName, head.name⟩
      (bytes ++ slot.rest) nodes last ↔ found nodes ∧ last = slot.back) (result : α) :
    reads { slot with inner := bytes }.text result ↔
      ∃ nodes, found nodes ∧ result = put (close head nodes) := by
  have shape : Shape { slot with inner := bytes } := ⟨site.shape.begins, site.shape.quotes,
    site.shape.ends, site.shape.tag, site.shape.endQuotes, site.shape.closing⟩
  refine shape.reads_iff (close head) site.encloses (fun element behind => ?_) result
  rw [isElement_tag_iff shape.starts site.bindings site.start]
  refine exists_congr fun nodes => and_congr_left fun _ => ?_
  exact h nodes behind

/-- Where one more attribute stands in the start tag, the element has it too, if its references
can be resolved. -/
theorem reads_attributeOf_iff (site : slot.Site context scope inner depth head pieces reads put)
    {key value : String} (plain : IsPlainName key) (hkey : key ≠ "xmlns")
    (hnew : key ∉ head.attributes.map (·.name))
    (hvalue : ∀ b ∈ Utf8.encode value, b ≠ 0x22 ∧ b ≠ 0x27 ∧ b ≠ 0x3E) (result : α) :
    reads { slot with attributes := (attributeOf key value).bytes ++ slot.attributes }.text result ↔
      ∃ resolved, Reference.unescape value = some resolved ∧
        result = put (close { head with attributes := ⟨key, resolved⟩ :: head.attributes } pieces) := by
  have shape := site.shape.attributeOf plain hvalue
  have hquote : (0x22 : UInt8) ∉ Utf8.encode value := fun hmem => (hvalue _ hmem).1 rfl
  refine shape.reads_iff
    (fun resolved => close { head with attributes := ⟨key, resolved⟩ :: head.attributes } pieces)
    site.encloses (fun element behind => ?_) result
  refine (isElement_opening_iff shape.starts).trans ?_
  rw [innerScope_attributeOf plain hkey hquote, site.bindings]
  constructor
  · rintro ⟨_, new, found, ⟨⟩, hstart, hcontent, rfl⟩
    obtain ⟨resolved, hresolved, rfl⟩ :=
      (startTag_attributeOf_iff site.start plain hkey hnew hquote).mp hstart
    obtain ⟨rfl, rfl⟩ := content_unique site.content hcontent
    exact ⟨resolved, ⟨hresolved, rfl⟩, rfl⟩
  · rintro ⟨resolved, ⟨hresolved, rfl⟩, rfl⟩
    exact ⟨inner, _, pieces, rfl, (startTag_attributeOf_iff site.start plain hkey hnew
      hquote).mpr ⟨resolved, hresolved, rfl⟩, site.content, rfl⟩

end Site

end Slot

end BinaryXml
