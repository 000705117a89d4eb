import BinaryXml.Proofs.Xml.Readable

/-! # Opening brackets of a tree

Each tag needs an opening bracket, and the names in it may have more.

* `count_elementBytes`: what is written of a tree has no other opening brackets.
* `brackets_le_of_content` and `brackets_le_of_isElement`: what is read has at least those of its
  tree.
-/

namespace BinaryXml

open AttributeList (scan)
open Parsing (Content IsElement Outside Starts)
open Writing

set_option autoImplicit false

/-- The opening brackets among some bytes. -/
def openings (bytes : Bytes) : Nat :=
  bytes.count 0x3C

@[simp] theorem openings_nil : openings [] = 0 := rfl

@[simp] theorem openings_append (front back : Bytes) :
    openings (front ++ back) = openings front + openings back :=
  List.count_append

@[simp] theorem openings_bracket (rest : Bytes) : openings (0x3C :: rest) = openings rest + 1 :=
  List.count_cons_self

theorem openings_cons {b : UInt8} (h : b ≠ 0x3C) (rest : Bytes) :
    openings (b :: rest) = openings rest :=
  List.count_cons_of_ne h

theorem openings_eq_zero {bytes : Bytes} (h : ∀ b ∈ bytes, b ≠ 0x3C) : openings bytes = 0 :=
  List.count_eq_zero.mpr fun hmem => h _ hmem rfl

theorem openings_le_of_sublist {bytes bytes' : Bytes} (h : bytes.Sublist bytes') :
    openings bytes ≤ openings bytes' :=
  h.count_le _

/-! ## Brackets that a tree needs -/

/-- The opening brackets in the names of attributes. -/
def keyOpenings (list : List Attribute) : Nat :=
  openings (list.flatMap (Utf8.encode ·.name))

theorem keyOpenings_cons (first : Attribute) (rest : List Attribute) :
    keyOpenings (first :: rest) = openings (Utf8.encode first.name) + keyOpenings rest := by
  rw [keyOpenings, List.flatMap_cons, openings_append, keyOpenings]

mutual

/-- The opening brackets that an element needs. -/
def Element.brackets : Element → Nat
  | ⟨name, _, attributes, children⟩ => 1 + openings (Utf8.encode name) + keyOpenings attributes +
      if children.isEmpty then 0
      else Node.bracketsAll children + 1 + openings (Utf8.encode name)

def Node.bracketsAll : List Node → Nat
  | [] => 0
  | .element child :: rest => child.brackets + Node.bracketsAll rest
  | .text _ :: rest => Node.bracketsAll rest
  | .comment _ :: rest => Node.bracketsAll rest

end

theorem Element.brackets_mk (name : String) (uri : Option String) (attributes : List Attribute)
    (children : List Node) : Element.brackets ⟨name, uri, attributes, children⟩ =
      1 + openings (Utf8.encode name) + keyOpenings attributes +
        if children = [] then 0 else Node.bracketsAll children + 1 + openings (Utf8.encode name) := by
  rw [Element.brackets]
  simp only [List.isEmpty_iff]

namespace Node

theorem bracketsAll_element (child : Element) (rest : List Node) :
    bracketsAll (.element child :: rest) = child.brackets + bracketsAll rest := rfl

theorem bracketsAll_text (content : String) (rest : List Node) :
    bracketsAll (.text content :: rest) = bracketsAll rest := rfl

theorem bracketsAll_consText (data : String) (nodes : List Node) :
    bracketsAll (consText data nodes) = bracketsAll nodes := by
  unfold consText
  split
  · rfl
  · split
    · rw [bracketsAll_text, bracketsAll_text]
    · rw [bracketsAll_text]

theorem bracketsAll_coalesce (nodes : List Node) :
    bracketsAll (coalesce nodes) = bracketsAll nodes := by
  induction nodes with
  | nil => rfl
  | cons node rest ih =>
    cases node with
    | element child => simp only [coalesce, bracketsAll, ih]
    | text content => simp only [coalesce, bracketsAll, bracketsAll_consText, ih]
    | comment content => simp only [coalesce, bracketsAll, ih]

end Node

mutual

theorem brackets_unqualified : ∀ root : Element, root.unqualified.brackets = root.brackets
  | ⟨name, uri, attributes, children⟩ => by
    rw [Element.unqualified, Element.brackets_mk, Element.brackets_mk,
      bracketsAll_unqualifiedAll children]
    simp only [Node.unqualifiedAll_eq_nil_iff]

theorem bracketsAll_unqualifiedAll :
    ∀ nodes : List Node, Node.bracketsAll (Node.unqualifiedAll nodes) = Node.bracketsAll nodes
  | [] => rfl
  | .element child :: rest => by
    simp only [Node.unqualifiedAll, Node.bracketsAll, brackets_unqualified child,
      bracketsAll_unqualifiedAll rest]
  | .text content :: rest => by
    simp only [Node.unqualifiedAll, Node.bracketsAll, bracketsAll_unqualifiedAll rest]
  | .comment content :: rest => by
    simp only [Node.unqualifiedAll, Node.bracketsAll, bracketsAll_unqualifiedAll rest]

end

/-! ## Brackets that are written -/

section Written
variable {charset : Charset}

theorem openings_escape (inAttribute : Bool) (data : String) :
    openings (Utf8.encode (escape charset inAttribute data)) = 0 :=
  openings_eq_zero fun _ hb => (plain_of_mem_escape hb).1

theorem openings_attributeBytes (first : Attribute) :
    openings (attributeBytes charset first) = openings (Utf8.encode first.name) := by
  rw [attributeBytes, openings_cons (by decide), openings_append, openings_cons (by decide),
    openings_cons (by decide), openings_append, openings_escape]
  rfl

theorem openings_attributes (list : List Attribute) :
    openings (list.flatMap (attributeBytes charset)) = keyOpenings list := by
  induction list with
  | nil => rfl
  | cons first rest ih =>
    rw [List.flatMap_cons, openings_append, openings_attributeBytes, ih, keyOpenings_cons]

theorem openings_tagBytes (outer uri : Option String) (name : String) (list : List Attribute) :
    openings (tagBytes charset name (shown outer uri list)) =
      openings (Utf8.encode name) + keyOpenings list := by
  have hshown : keyOpenings (shown outer uri list) = keyOpenings list := by
    rcases shown_cases outer uri list with ⟨hsame, -⟩ | ⟨value, -, hsame, -⟩
    · rw [hsame]
    · have hxmlns : openings (Utf8.encode "xmlns") = 0 := by decide
      rw [hsame, keyOpenings_cons, hxmlns, Nat.zero_add]
  rw [tagBytes, openings_append, openings_attributes, hshown]

theorem openings_endTag (name : String) :
    openings (endTag name) = openings (Utf8.encode name) + 1 := by
  rw [endTag, openings_bracket, openings_cons (by decide), openings_append]
  rfl

mutual

/-- What is written of a tidy tree has the opening brackets that the tree needs. -/
theorem openings_elementBytes : ∀ {root : Element} (outer : Option String), root.Tidy →
    openings (elementBytes charset outer root) = root.brackets
  | ⟨name, uri, list, children⟩, outer, htidy => by
    rw [Element.brackets_mk]
    by_cases hchildren : children = []
    · subst hchildren
      have hend : openings [0x2F] = 0 := rfl
      have hclose : openings [0x3E] = 0 := rfl
      rw [elementBytes_empty, openings_bracket, openings_append, openings_append,
        openings_tagBytes, hend, hclose, if_pos rfl]
      omega
    · rw [elementBytes_of_ne hchildren, openings_bracket, openings_append, openings_tagBytes,
        openings_cons (by decide), openings_append, openings_endTag,
        openings_contentBytes _ (tidy_iff.mp htidy).2, if_neg hchildren]
      omega

theorem openings_contentBytes : ∀ {nodes : List Node} (outer : Option String),
    Node.TidyAll nodes → openings (contentBytes charset outer nodes) = Node.bracketsAll nodes
  | [], _, _ => rfl
  | .element child :: rest, outer, htidy => by
    rw [tidyAll_element_iff] at htidy
    rw [contentBytes_element, openings_append, openings_elementBytes outer htidy.1,
      openings_contentBytes outer htidy.2, Node.bracketsAll_element]
  | .text data :: rest, outer, htidy => by
    rw [tidyAll_text_iff] at htidy
    rw [contentBytes_text, openings_append, openings_escape, Nat.zero_add,
      openings_contentBytes outer htidy.2.2, Node.bracketsAll_text]
  | .comment content :: rest, _, htidy => absurd htidy not_tidyAll_comment

end

end Written

/-! ## Brackets that are read -/

/-- A start tag takes a bracket off the text, and those of its name and of its attributes. -/
theorem openings_of_tag {text rest : Bytes} {piece : Markup} {tag : Tag}
    (starts : Starts text piece rest) (hpiece : piece = .empty tag ∨ piece = .opening tag) :
    1 + openings tag.name + openings tag.attributes + openings rest ≤ openings text := by
  obtain ⟨hne, hnext⟩ := starts
  obtain ⟨b, text, rfl⟩ := List.exists_cons_of_ne_nil hne
  obtain ⟨content, hbytes, -, -, rfl⟩ := Markup.exists_content hnext hpiece
  obtain ⟨core, final, rfl, rfl, -⟩ := tagPiece_cases hpiece
  have hsplit : openings (Markup.tag core).name + openings (Markup.tag core).attributes =
      openings core := by
    rw [Markup.tag, ← openings_append, List.takeWhile_append_dropWhile]
  rw [hbytes, openings_bracket, openings_append, openings_append, openings_cons (by decide)]
  omega

theorem openings_of_closing {text rest name : Bytes} (starts : Starts text (.closing name) rest) :
    1 + openings name + openings rest ≤ openings text := by
  obtain ⟨hne, hnext⟩ := starts
  obtain ⟨b, text, rfl⟩ := List.exists_cons_of_ne_nil hne
  obtain ⟨content, hbytes, -, rfl⟩ := Markup.exists_closing hnext
  obtain ⟨spaces, hname, -⟩ := Markup.exists_closingName content
  have hopenings := congrArg openings hname
  rw [openings_append] at hopenings
  rw [hbytes, openings_bracket, openings_cons (by decide), openings_append,
    openings_cons (by decide)]
  omega

theorem openings_of_starts {text rest : Bytes} {piece : Markup} (starts : Starts text piece rest) :
    openings rest ≤ openings text := by
  obtain ⟨hne, hnext⟩ := starts
  obtain ⟨b, text, rfl⟩ := List.exists_cons_of_ne_nil hne
  have hshape := Markup.next_shape hnext
  generalize b :: text = bytes at hshape
  have hsuffix : rest <:+ bytes := by
    cases hshape with
    | @tag content rest => exact ⟨0x3C :: (content ++ [0x3E]), by simp⟩
    | @closing content rest => exact ⟨0x3C :: 0x2F :: (content ++ [0x3E]), by simp⟩
    | @bracket front rest => exact ⟨0x3C :: front, by simp⟩
    | @plain b front rest => exact ⟨b :: front, by simp⟩
  exact openings_le_of_sublist hsuffix.sublist

theorem openings_lt_of_starts {text rest : Bytes} {piece : Markup}
    (starts : Starts (0x3C :: text) piece rest) : openings rest < openings (0x3C :: text) := by
  have hshape := Markup.next_shape starts.2
  generalize hbytes : 0x3C :: text = bytes at hshape
  have hsuffix : rest <:+ text := by
    cases hshape with
    | @tag content rest =>
      cases hbytes
      exact ⟨content ++ [0x3E], by simp⟩
    | @closing content rest =>
      cases hbytes
      exact ⟨0x2F :: (content ++ [0x3E]), by simp⟩
    | @bracket front rest =>
      cases hbytes
      exact ⟨front, rfl⟩
    | plain noBracket =>
      cases hbytes
      exact absurd rfl noBracket
  rw [← hbytes, openings_bracket]
  exact Nat.lt_succ_of_le (openings_le_of_sublist hsuffix.sublist)

/-- The keys that are taken off a text have no more brackets than the text. -/
theorem openings_scan (text : Bytes) :
    openings ((scan text).items.flatMap (·.key)) ≤ openings text := by
  -- An attribute takes several bytes, so the induction is on the length of what is left.
  induction hlength : text.length using Nat.strongRecOn generalizing text with
  | _ length ih =>
    have hdrop : openings (text.dropWhile Markup.isSpace) ≤ openings text :=
      openings_le_of_sublist (List.dropWhile_suffix _).sublist
    have hshort := (List.dropWhile_suffix Markup.isSpace (l := text)).length_le
    rw [AttributeList.scan_eq]
    cases htext : text.dropWhile Markup.isSpace with
    | nil => simp
    | cons first rest =>
      rw [htext] at hdrop hshort
      dsimp only
      cases hone : AttributeList.one first rest with
      | none => simp
      | some found =>
        obtain ⟨item, rest'⟩ := found
        have hfirst := AttributeList.isSpace_of_dropWhile htext
        have hlt := AttributeList.length_lt_of_one hfirst hone
        obtain ⟨-, middle, -, hmiddle⟩ := AttributeList.one_eq_some hfirst hone
        have hrest := ih rest'.length (by omega) rest' rfl
        rw [hmiddle, openings_append, openings_append] at hdrop
        dsimp only
        rw [List.flatMap_cons, openings_append]
        omega

theorem keyOpenings_attributes {seen : List Bytes} {items : List RawAttribute}
    {list : List Attribute} (h : Parsing.attributes seen items = .ok list) :
    keyOpenings list ≤ openings (items.flatMap (·.key)) := by
  induction items generalizing seen list with
  | nil =>
    cases h
    exact Nat.le_refl _
  | cons item rest ih =>
    rw [List.flatMap_cons, openings_append]
    obtain ⟨-, ⟨-, hrest⟩ | ⟨-, text, value, name, others, -, -, hname, hrest, rfl⟩⟩ :=
      Parsing.attributes_cons_eq_ok_iff.mp h
    · exact Nat.le_trans (ih hrest) (Nat.le_add_left _ _)
    · have hothers := ih hrest
      rw [keyOpenings_cons, Parsing.encode_of_utf8 hname]
      omega

section Read
variable {context : Parsing.Context} {scope : Scope} {depth : Nat}

theorem openings_startTag {tag : Tag} {element : Element}
    (h : Parsing.startTag context scope depth tag = .ok element) :
    openings (Utf8.encode element.name) ≤ openings tag.name ∧
      keyOpenings element.attributes ≤ openings tag.attributes ∧ element.children = [] := by
  obtain ⟨-, name, uri, list, hname, -, hlist, -, rfl⟩ := Parsing.startTag_eq_ok_iff.mp h
  refine ⟨?_, Nat.le_trans (keyOpenings_attributes hlist) (openings_scan _), rfl⟩
  rw [Parsing.encode_of_utf8 hname]
  unfold Scope.split
  cases hcut : Markup.cut [0x3A] tag.name with
  | none => exact Nat.le_refl _
  | some found =>
    obtain ⟨front, back⟩ := found
    rw [Markup.cut_eq_some hcut]
    dsimp only
    rw [openings_append]
    exact Nat.le_add_left _ _

/-- The brackets of an element that a start tag begins, up to those behind the tag. -/
theorem brackets_close {element : Element} (hchildren : element.children = [])
    (pieces : List Node) : (Parsing.close element pieces).brackets ≤
      1 + openings (Utf8.encode element.name) + keyOpenings element.attributes +
        (Node.bracketsAll pieces + 1 + openings (Utf8.encode element.name)) := by
  obtain ⟨name, uri, attributes, children⟩ := element
  rw [Parsing.close, Element.brackets_mk, Node.bracketsAll_coalesce]
  split <;> omega

theorem brackets_le_of_empty {text rest : Bytes} {tag : Tag} {element : Element}
    (starts : Starts text (.empty tag) rest)
    (start : Parsing.startTag context scope depth tag = .ok element) :
    element.brackets + openings rest ≤ openings text := by
  obtain ⟨hname, hkeys, hchildren⟩ := openings_startTag start
  have htag := openings_of_tag starts (.inl rfl)
  obtain ⟨name, uri, attributes, children⟩ := element
  dsimp only at hname hkeys hchildren
  subst hchildren
  rw [Element.brackets_mk, if_pos rfl]
  omega

theorem brackets_le_of_opening {text behind last : Bytes} {tag : Tag} {element : Element}
    {pieces : List Node} (starts : Starts text (.opening tag) behind)
    (start : Parsing.startTag context scope depth tag = .ok element)
    (h : Node.bracketsAll pieces + 1 + openings tag.name + openings last ≤ openings behind) :
    (Parsing.close element pieces).brackets + openings last ≤ openings text := by
  obtain ⟨hname, hkeys, hchildren⟩ := openings_startTag start
  have htag := openings_of_tag starts (.inr rfl)
  have hclose := brackets_close hchildren pieces
  omega

theorem brackets_le_of_content {opened : Parsing.Open} {text last : Bytes} {nodes : List Node}
    (h : Content context scope depth opened text nodes last) :
    Node.bracketsAll nodes + 1 + openings opened.tagName + openings last ≤ openings text := by
  -- Each tag in the text pays for the bracket that the tree needs, and the end tag for the one that
  -- is counted besides.
  induction h with
  | @leaf _ _ _ _ _ _ _ node _ starts single _ ih =>
    have hrest := openings_of_starts starts
    cases node with
    | element child => exact absurd single (Parsing.leaf?_ne_element child)
    | text content =>
      rw [Node.bracketsAll]
      omega
    | comment content =>
      rw [Node.bracketsAll]
      omega
  | declaration starts _ ih => exact Nat.le_trans ih (openings_of_starts starts)
  | closing starts =>
    have hclosing := openings_of_closing starts
    rw [Node.bracketsAll]
    omega
  | empty starts _ start _ ih =>
    have helement := brackets_le_of_empty starts start
    rw [Node.bracketsAll_element]
    omega
  | opening starts _ start _ _ ihContent ih =>
    have helement := brackets_le_of_opening starts start ihContent
    rw [Node.bracketsAll_element]
    omega

theorem brackets_le_of_isElement {text last : Bytes} {element : Element}
    (h : IsElement context scope depth text element last) :
    element.brackets + openings last ≤ openings text := by
  cases h with
  | empty starts _ start => exact brackets_le_of_empty starts start
  | opening starts _ start content =>
    exact brackets_le_of_opening starts start (brackets_le_of_content content)

theorem brackets_le_of_outside {text : Bytes} {element : Element}
    (h : Outside context none text element) : element.brackets ≤ openings text := by
  generalize hroot : none = root at h
  induction h with
  | finish => cases hroot
  | blank starts _ _ _ ih => exact Nat.le_trans (ih hroot) (openings_of_starts starts)
  | passed starts _ _ ih => exact Nat.le_trans (ih hroot) (openings_of_starts starts)
  | doctype starts _ _ ih => exact Nat.le_trans (ih hroot) (openings_of_starts starts)
  | root isElement others =>
    rw [Parsing.eq_of_outside others]
    exact Nat.le_trans (Nat.le_add_right _ _) (brackets_le_of_isElement isElement)

end Read

end BinaryXml
