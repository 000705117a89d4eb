import BinaryXml.Proofs.Xml.Tags

/-! # The bytes of a written tree

* `elementBytes` and `contentBytes`: what is written of an element, and of nodes, in compact output.
* `encode_of_element`: where an element can be written, these are its bytes.
-/

namespace BinaryXml

set_option autoImplicit false

namespace Writing

def endTag (name : String) : Bytes :=
  0x3C :: 0x2F :: (Utf8.encode name ++ [0x3E])

mutual

/-- The bytes of an element, where some namespace holds. -/
def elementBytes (charset : Charset) (scope : Option String) : Element → Bytes
  | ⟨name, uri, list, children⟩ =>
    0x3C :: (tagBytes charset name (shown scope uri list) ++ slash children ++ 0x3E ::
      if children.isEmpty then []
      else contentBytes charset (innerScope scope uri) children ++ endTag name)

def contentBytes (charset : Charset) (scope : Option String) : List Node → Bytes
  | [] => []
  | .element child :: rest => elementBytes charset scope child ++ contentBytes charset scope rest
  | .text data :: rest => Utf8.encode (escape charset false data) ++ contentBytes charset scope rest
  | .comment data :: rest => Utf8.encode "<!--" ++ Utf8.encode (commentText charset data) ++
      Utf8.encode "-->" ++ contentBytes charset scope rest

end

section Bytes
variable {charset : Charset} {scope uri : Option String} {name : String} {list : List Attribute}

theorem elementBytes_empty : elementBytes charset scope ⟨name, uri, list, []⟩ =
    0x3C :: (tagBytes charset name (shown scope uri list) ++ [0x2F] ++ [0x3E]) := by
  rw [elementBytes]
  rfl

theorem elementBytes_of_ne {children : List Node} (h : children ≠ []) :
    elementBytes charset scope ⟨name, uri, list, children⟩ =
      0x3C :: (tagBytes charset name (shown scope uri list) ++ 0x3E ::
        (contentBytes charset (innerScope scope uri) children ++ endTag name)) := by
  rw [elementBytes, if_neg (by simpa using h)]
  rcases slash_cases children with ⟨hnil, -⟩ | ⟨-, hslash⟩
  · exact absurd hnil h
  · rw [hslash, List.append_nil]

theorem contentBytes_element (child : Element) (rest : List Node) :
    contentBytes charset scope (.element child :: rest) =
      elementBytes charset scope child ++ contentBytes charset scope rest := rfl

theorem contentBytes_text (data : String) (rest : List Node) :
    contentBytes charset scope (.text data :: rest) =
      Utf8.encode (escape charset false data) ++ contentBytes charset scope rest := rfl

theorem contentBytes_comment (data : String) (rest : List Node) :
    contentBytes charset scope (.comment data :: rest) = Utf8.encode "<!--" ++
      Utf8.encode (commentText charset data) ++ Utf8.encode "-->" ++
        contentBytes charset scope rest := rfl

end Bytes

/-! ## What is written -/

theorem declaration_eq (charset : Charset) (scope uri : Option String) :
    declaration charset scope uri =
      ((declared? scope uri).elim "" fun found => attributeText charset found.name found.value,
        innerScope scope uri) := by
  unfold declaration innerScope declared?
  cases uri with
  | none => rfl
  | some uri =>
    rw [Option.bind_some]
    dsimp only
    split <;> rfl

theorem encode_declared (charset : Charset) (scope uri : Option String) :
    Utf8.encode ((declared? scope uri).elim "" fun found =>
      attributeText charset found.name found.value) =
        (declared? scope uri).toList.flatMap (attributeBytes charset) := by
  cases declared? scope uri with
  | none => rfl
  | some found =>
    rw [Option.elim_some, encode_attributeText, Option.toList_some, List.flatMap_singleton]

theorem encode_of_attributes {charset : Charset} {list : List Attribute} {text : String}
    (h : attributes charset list = .ok text) :
    Utf8.encode text = list.flatMap (attributeBytes charset) := by
  induction list generalizing text with
  | nil =>
    cases h
    rfl
  | cons first rest ih =>
    obtain ⟨-, h⟩ := Parsing.check_eq_ok_iff.mp h
    obtain ⟨others, hothers, h⟩ := Parsing.bind_eq_ok_iff.mp h
    cases h
    rw [Utf8.encode_append, encode_attributeText, ih hothers, List.flatMap_cons]

theorem encode_lineBreak : Utf8.encode (lineBreak none) = [] := rfl

mutual

theorem encode_of_element {charset : Charset} {scope : Option String} : ∀ {root : Element}
    {text : String}, element charset scope none root = .ok text →
      Utf8.encode text = elementBytes charset scope root
  | ⟨name, uri, list, children⟩, text, h => by
    have hopen : Utf8.encode "<" = [0x3C] := rfl
    have hempty : Utf8.encode "/>" = [0x2F, 0x3E] := rfl
    have hclose : Utf8.encode ">" = [0x3E] := rfl
    have hend : Utf8.encode "</" = [0x3C, 0x2F] := rfl
    rw [element, declaration_eq] at h
    obtain ⟨-, h⟩ := Parsing.check_eq_ok_iff.mp h
    obtain ⟨attributesText, hattributes, h⟩ := Parsing.bind_eq_ok_iff.mp h
    have hstart : Utf8.encode ("<" ++ name ++ ((declared? scope uri).elim "" fun found =>
        attributeText charset found.name found.value) ++ attributesText) =
          0x3C :: tagBytes charset name (shown scope uri list) := by
      rw [Utf8.encode_append, Utf8.encode_append, Utf8.encode_append, encode_declared,
        encode_of_attributes hattributes, tagBytes, shown, List.flatMap_append, hopen]
      simp only [List.cons_append, List.nil_append, List.append_assoc]
    by_cases hchildren : children = []
    · subst hchildren
      cases h
      rw [Utf8.encode_append, hstart, elementBytes_empty, hempty]
      simp
    · rw [if_neg (by simpa using hchildren)] at h
      obtain ⟨inside, hinside, h⟩ := Parsing.bind_eq_ok_iff.mp h
      have hlayout : (if isMixed children = true then none else none : Option Layout) = none := by
        split <;> rfl
      rw [hlayout] at hinside h
      cases h
      have hcontent := encode_of_content hinside
      simp only [Utf8.encode_append] at hstart ⊢
      rw [hstart, hcontent, elementBytes_of_ne hchildren, endTag, hclose, encode_lineBreak, hend]
      simp

theorem encode_of_content {charset : Charset} {scope : Option String} : ∀ {nodes : List Node}
    {text : String}, content charset scope none nodes = .ok text →
      Utf8.encode text = contentBytes charset scope nodes
  | [], text, h => by
    rw [content] at h
    cases h
    rfl
  | .element child :: rest, text, h => by
    rw [content] at h
    obtain ⟨first, hfirst, h⟩ := Parsing.bind_eq_ok_iff.mp h
    obtain ⟨others, hothers, h⟩ := Parsing.bind_eq_ok_iff.mp h
    cases h
    rw [Utf8.encode_append, Utf8.encode_append, encode_lineBreak, encode_of_element hfirst,
      encode_of_content hothers, contentBytes_element, List.nil_append]
  | .text data :: rest, text, h => by
    rw [content] at h
    obtain ⟨others, hothers, h⟩ := Parsing.bind_eq_ok_iff.mp h
    cases h
    rw [Utf8.encode_append, Utf8.encode_append, encode_lineBreak, encode_of_content hothers,
      contentBytes_text, List.nil_append]
  | .comment data :: rest, text, h => by
    rw [content] at h
    obtain ⟨others, hothers, h⟩ := Parsing.bind_eq_ok_iff.mp h
    cases h
    simp only [Utf8.encode_append, encode_lineBreak, List.nil_append]
    rw [encode_of_content hothers, contentBytes]

end

end Writing

end BinaryXml
