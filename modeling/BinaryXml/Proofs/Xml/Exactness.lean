import BinaryXml.Proofs.Xml.Brackets
import BinaryXml.Proofs.Xml.TagExactness

/-! # Trees that are read back are readable

What is written of a tree is read as the same tree up to its namespaces. There is no bracket to
spare in what is written, so that each piece in brackets is a tag of the tree.

* `content_cases`: where no bracket is to spare, a tag comes first.
* `readable_of_isElement` and `readableAll_of_content`: the names in the tree are readable.
-/

namespace BinaryXml

open Markup (quoteAfter)
open Parsing (Content IsElement Starts)
open Writing

set_option autoImplicit false

/-! ## Brackets among nodes -/

theorem opens_contentBytes (charset : Charset) (outer : Option String) {nodes : List Node}
    {behind : Bytes} (htidy : Node.TidyAll nodes) (hbehind : ∃ rest, behind = 0x3C :: rest) :
    Opens (contentBytes charset outer nodes ++ behind) := by
  by_cases hhead : ∃ text, nodes.head? = some (.text text)
  · obtain ⟨text, htext⟩ := hhead
    obtain ⟨rest, rfl⟩ := List.head?_eq_some_iff.mp htext
    obtain ⟨-, hnext, -⟩ := tidyAll_text_iff.mp htidy
    obtain ⟨bytes, hbytes⟩ := contentBytes_head charset outer hnext hbehind
    have hescape : (0x3E : UInt8) ∉ Utf8.encode (escape charset false text) := fun hmem =>
      (plain_of_mem_escape hmem).2.1 rfl
    rw [contentBytes_text, List.append_assoc, hbytes]
    exact (opens_cons bytes).append hescape
  · obtain ⟨bytes, hbytes⟩ := contentBytes_head charset outer
      (fun text htext => hhead ⟨text, htext⟩) hbehind
    rw [hbytes]
    exact opens_cons bytes

theorem bracketsAll_of_unqualifiedAll {pieces nodes : List Node}
    (h : Node.unqualifiedAll (Node.coalesce pieces) = Node.unqualifiedAll nodes) :
    Node.bracketsAll pieces = Node.bracketsAll nodes := by
  rw [← Node.bracketsAll_coalesce, ← bracketsAll_unqualifiedAll, h, bracketsAll_unqualifiedAll]

section Exact
variable {charset : Charset} {context : Parsing.Context} {scope : Scope} {depth : Nat}

/-- Where no bracket is to spare, a tag comes first. -/
theorem content_cases {opened : Parsing.Open} {text behind : Bytes} {pieces : List Node}
    (h : Content context scope depth opened (0x3C :: text) pieces behind)
    (htight : openings (0x3C :: text) ≤
      Node.bracketsAll pieces + 1 + openings opened.tagName + openings behind) :
    (pieces = [] ∧ Starts (0x3C :: text) (.closing opened.tagName) behind) ∨
      ∃ element rest others, pieces = .element element :: others ∧
        IsElement context scope depth (0x3C :: text) element rest ∧
          Content context scope depth opened rest others behind := by
  cases h with
  | @leaf _ _ _ _ _ _ _ node others starts single content =>
    exfalso
    have hbrackets := brackets_le_of_content content
    have hlt := openings_lt_of_starts starts
    cases node with
    | element child => exact absurd single (Parsing.leaf?_ne_element child)
    | text data =>
      rw [Node.bracketsAll] at htight
      omega
    | comment data =>
      rw [Node.bracketsAll] at htight
      omega
  | declaration starts content =>
    exfalso
    have hbrackets := brackets_le_of_content content
    have hlt := openings_lt_of_starts starts
    omega
  | closing starts => exact .inl ⟨rfl, starts⟩
  | empty starts bindings start content =>
    exact .inr ⟨_, _, _, rfl, .empty starts bindings start, content⟩
  | opening starts bindings start inside content =>
    exact .inr ⟨_, _, _, rfl, .opening starts bindings start inside, content⟩

/-- An end tag that is read as one closes its quotes. -/
theorem quoteAfter_of_endTag {name : String} {tail behind : Bytes}
    (starts : Starts (endTag name ++ tail) (.closing (Utf8.encode name)) behind) :
    quoteAfter none (Utf8.encode name) = some none ∧ behind = tail := by
  have hwritten : endTag name ++ tail = 0x3C :: 0x2F :: (Utf8.encode name ++ 0x3E :: tail) := by
    simp [endTag]
  rw [hwritten] at starts
  obtain ⟨content, hbytes, hquote, hname⟩ := Markup.exists_closing starts.2
  obtain ⟨spaces, hcontent, hspaces⟩ := Markup.exists_closingName content
  rw [hname] at hcontent
  simp only [List.cons.injEq, true_and] at hbytes
  rw [hcontent, List.append_assoc, List.append_cancel_left_eq] at hbytes
  cases spaces with
  | nil =>
    rw [List.append_nil] at hcontent
    rw [hcontent] at hquote
    exact ⟨hquote, (List.cons.inj hbytes).2.symm⟩
  | cons b spaces =>
    obtain ⟨rfl, -⟩ := List.cons.inj hbytes
    cases hspaces 0x3E List.mem_cons_self

/-- What stands behind the start tag: the tail, or the content with its end tag. -/
theorem exists_behind (charset : Charset) (outer : Option String) (name : String)
    (uri : Option String) (attributes : List Attribute) (children : List Node) (tail : Bytes) :
    ∃ more, elementBytes charset outer ⟨name, uri, attributes, children⟩ ++ tail =
      0x3C :: (tagBytes charset name (shown outer uri attributes) ++ slash children ++
        0x3E :: more) ∧
      (children = [] → more = tail) ∧ (children ≠ [] → more = contentBytes charset
        (Writing.innerScope outer uri) children ++ (endTag name ++ tail)) := by
  by_cases hchildren : children = []
  · subst hchildren
    refine ⟨tail, ?_, fun _ => rfl, fun hne => absurd rfl hne⟩
    rw [elementBytes_empty]
    simp [slash]
  · refine ⟨_, ?_, fun hnil => absurd hnil hchildren, fun _ => rfl⟩
    rw [elementBytes_of_ne hchildren]
    simp [slash, hchildren]

mutual

/-- The names in a tidy element that is read back are readable. -/
theorem readable_of_isElement : ∀ {root found : Element} {scope : Scope} {outer : Option String}
    {depth : Nat} {tail behind : Bytes}, root.Tidy →
      IsElement context scope depth (elementBytes charset outer root ++ tail) found behind →
        found.unqualified = root.unqualified → Opens tail → openings tail ≤ openings behind →
          root.Readable ∧ behind = tail
  | ⟨name, uri, attributes, children⟩, found, scope, outer, depth, tail, behind, htidy, isElement,
      hsame, opens, htail => by
    obtain ⟨hspace, htidyInside⟩ := tidy_iff.mp htidy
    rw [Element.unqualified_eq_iff] at hsame
    dsimp only at hsame
    obtain ⟨more, hmore, hempty, hinside⟩ :=
      exists_behind charset outer name uri attributes children tail
    rw [hmore] at isElement
    have hopens : Opens more := by
      by_cases hchildren : children = []
      · rw [hempty hchildren]
        exact opens
      · rw [hinside hchildren]
        exact opens_contentBytes charset _ htidyInside ⟨_, rfl⟩
    cases isElement with
    | @empty inner _ _ tag _ starts bindings start =>
      have hchildren : children = [] := by
        rw [(openings_startTag start).2.2] at hsame
        exact Node.unqualifiedAll_eq_nil_iff.mp hsame.2.2.symm
      obtain ⟨readable, hrest, -⟩ := readable_of_startTag hspace starts (.inl rfl) start hsame.1
        hsame.2.1 hopens (by rw [hempty hchildren]; exact htail)
      refine ⟨readable_iff.mpr ⟨readable, fun hne => absurd hchildren hne, ?_⟩, ?_⟩
      · rw [hchildren, Node.ReadableAll]
        trivial
      · rw [hrest, hempty hchildren]
    | @opening inner _ rest _ tag head pieces starts bindings start content =>
      have hpieces : Node.unqualifiedAll (Node.coalesce pieces) = Node.unqualifiedAll children :=
        hsame.2.2
      have hname : head.name = name := hsame.1
      have hbrackets := brackets_le_of_content content
      have hsize := bracketsAll_of_unqualifiedAll hpieces
      have hnames := (openings_startTag start).1
      have hcount : openings more ≤ openings rest := by
        by_cases hchildren : children = []
        · rw [hempty hchildren]
          omega
        · rw [hinside hchildren, openings_append, openings_append, openings_endTag,
            openings_contentBytes _ htidyInside]
          rw [hname] at hnames
          dsimp only at hbrackets
          omega
      obtain ⟨readable, hrest, hpiece⟩ := readable_of_startTag hspace starts (.inr rfl) start hname
        hsame.2.1 hopens hcount
      unfold startPiece at hpiece
      split at hpiece
      · cases hpiece
      · rename_i hchildren
        cases hpiece
        have hne : children ≠ [] := by simpa using hchildren
        rw [hrest, hinside hne] at content
        obtain ⟨hreadable, hquote, hbehind⟩ := readableAll_of_content htidyInside content hpieces rfl
          htail
        exact ⟨readable_iff.mpr ⟨readable, fun _ => hquote, hreadable⟩, hbehind⟩

/-- The names in tidy nodes that are read back are readable, and so is that of the end tag. -/
theorem readableAll_of_content : ∀ {nodes pieces : List Node} {scope : Scope}
    {outer : Option String} {depth : Nat} {opened : Parsing.Open} {name : String}
    {tail behind : Bytes}, Node.TidyAll nodes →
      Content context scope depth opened
        (contentBytes charset outer nodes ++ (endTag name ++ tail)) pieces behind →
          Node.unqualifiedAll (Node.coalesce pieces) = Node.unqualifiedAll nodes →
            opened.tagName = Utf8.encode name → openings tail ≤ openings behind →
              Node.ReadableAll nodes ∧ quoteAfter none (Utf8.encode name) = some none ∧
                behind = tail
  | [], pieces, _, _, _, opened, name, tail, behind, _, content, hsame, hname, htail => by
    have hcount : openings (endTag name ++ tail) ≤
        Node.bracketsAll pieces + 1 + openings opened.tagName + openings behind := by
      rw [openings_append, openings_endTag, hname]
      omega
    rcases content_cases content hcount with ⟨-, starts⟩ | ⟨element, rest, others, rfl, -, -⟩
    · rw [hname] at starts
      obtain ⟨hquote, hbehind⟩ := quoteAfter_of_endTag starts
      rw [Node.ReadableAll]
      exact ⟨trivial, hquote, hbehind⟩
    · rw [Node.coalesce, Node.unqualifiedAll_element] at hsame
      · cases hsame
      · nofun
  | .element child :: nodes, pieces, scope, outer, depth, opened, name, tail, behind, htidy,
      content, hsame, hname, htail => by
    rw [tidyAll_element_iff] at htidy
    rw [contentBytes_element, List.append_assoc] at content
    have hsize := bracketsAll_of_unqualifiedAll hsame
    have hcount : openings (elementBytes charset outer child ++
        (contentBytes charset outer nodes ++ (endTag name ++ tail))) ≤
          Node.bracketsAll pieces + 1 + openings opened.tagName + openings behind := by
      rw [openings_append, openings_append, openings_append, openings_endTag, hname, hsize,
        openings_elementBytes _ htidy.1, openings_contentBytes _ htidy.2, Node.bracketsAll_element]
      omega
    obtain ⟨bytes, hbytes⟩ := elementBytes_head charset outer child
    rw [hbytes, List.cons_append] at content hcount
    rcases content_cases content hcount with
      ⟨rfl, -⟩ | ⟨found, rest, others, rfl, isElement, hothers⟩
    · rw [Node.unqualifiedAll_element] at hsame
      cases hsame
    · rw [Node.coalesce, Node.unqualifiedAll_element, Node.unqualifiedAll_element,
        List.cons.injEq, Node.element.injEq] at hsame
      · rw [← List.cons_append, ← hbytes] at isElement
        have hbrackets := brackets_le_of_content hothers
        have hnodes := bracketsAll_of_unqualifiedAll hsame.2
        obtain ⟨hchild, rfl⟩ := readable_of_isElement htidy.1 isElement hsame.1
          (opens_contentBytes charset outer htidy.2 ⟨_, rfl⟩) (by
            rw [openings_append, openings_append, openings_endTag,
              openings_contentBytes _ htidy.2, ← hname]
            omega)
        obtain ⟨hreadable, hquote, hbehind⟩ :=
          readableAll_of_content htidy.2 hothers hsame.2 hname htail
        exact ⟨readableAll_element_iff.mpr ⟨hchild, hreadable⟩, hquote, hbehind⟩
      · nofun
  | .text data :: nodes, pieces, scope, outer, depth, opened, name, tail, behind, htidy,
      content, hsame, hname, htail => by
    obtain ⟨hne, hhead, hrest⟩ := tidyAll_text_iff.mp htidy
    rw [contentBytes_text, List.append_assoc] at content
    obtain ⟨bytes, hbytes⟩ := contentBytes_head charset outer hhead
      (⟨_, rfl⟩ : ∃ rest, endTag name ++ tail = 0x3C :: rest)
    obtain ⟨texts, hjoin, hyields⟩ := Parsing.yields_escape charset data hbytes
    obtain ⟨others, rfl, hothers⟩ := (hyields _ _).mp content
    rw [Node.coalesce_texts, hjoin, Node.unqualifiedAll_consText hne hhead] at hsame
    rw [readableAll_text_iff]
    exact readableAll_of_content hrest hothers hsame hname htail
  | .comment content :: _, _, _, _, _, _, _, _, _, htidy, _, _, _, _ =>
    absurd htidy not_tidyAll_comment

end

end Exact

end BinaryXml
