import BinaryXml.Proofs.Document.Levels
import BinaryXml.Proofs.Document.Unqualified
import BinaryXml.Proofs.Xml.Comments
import BinaryXml.Proofs.Xml.Written

/-! # Trees that are read as they are written

* `Element.Readable`: the names of a tree can stand in its tags.
* `Element.Neat`: the comments of a tree can be written, and its texts are the longest that there
  are; `Element.Tidy`: it has no comments besides.
* `readable_of_plain`: names without white space, brackets, quotes, colons and the like are readable.
* `isElement_readAs`: what is read of a neat tree with readable names.
-/

namespace BinaryXml

open Markup (quoteAfter)
open Parsing (Content IsElement)
open Writing

set_option autoImplicit false

mutual

/-- The names in an element can stand in its tags, and so on inside. -/
def Element.Readable : Element → Prop
  | ⟨name, _, attributes, children⟩ => TagReadable name attributes children ∧
      (children ≠ [] → quoteAfter none (Utf8.encode name) = some none) ∧
        Node.ReadableAll children

def Node.ReadableAll : List Node → Prop
  | [] => True
  | .element child :: rest => child.Readable ∧ Node.ReadableAll rest
  | .text _ :: rest => Node.ReadableAll rest
  | .comment _ :: rest => Node.ReadableAll rest

end

mutual

/-- An element as a stream holds it: a tag with a namespace has a name without a slash at its
end, and so on inside. -/
def Element.Tidy : Element → Prop
  | ⟨name, uri, _, children⟩ =>
    (∀ space, uri = some space → name ≠ "" ∧ (Utf8.encode name).getLast? ≠ some 0x2F) ∧
      Node.TidyAll children

/-- Nodes without comments, empty texts, and texts next to each other. -/
def Node.TidyAll : List Node → Prop
  | [] => True
  | .element child :: rest => child.Tidy ∧ Node.TidyAll rest
  | .text content :: rest =>
    content ≠ "" ∧ (∀ text, rest.head? ≠ some (.text text)) ∧ Node.TidyAll rest
  | .comment _ :: _ => False

end

mutual

/-- An element whose texts and comments can be written in a character set so that they are read
again. -/
def Element.Neat (charset : Charset) : Element → Prop
  | ⟨_, _, _, children⟩ => Node.NeatAll charset children

/-- Nodes without empty texts and texts next to each other, and with proper comments. -/
def Node.NeatAll (charset : Charset) : List Node → Prop
  | [] => True
  | .element child :: rest => child.Neat charset ∧ Node.NeatAll charset rest
  | .text content :: rest =>
    content ≠ "" ∧ (∀ text, rest.head? ≠ some (.text text)) ∧ Node.NeatAll charset rest
  | .comment content :: rest => (∀ c ∈ content.toList, charset.canEncode c = true) ∧
      IsComment content ∧ Node.NeatAll charset rest

end

mutual

/-- A tree whose comments can be told from what follows them. -/
def Element.Commented : Element → Prop
  | ⟨_, _, _, children⟩ => Node.CommentedAll children

def Node.CommentedAll : List Node → Prop
  | [] => True
  | .element child :: rest => child.Commented ∧ Node.CommentedAll rest
  | .text _ :: rest => Node.CommentedAll rest
  | .comment content :: rest => IsComment content ∧ Node.CommentedAll rest

end

mutual

/-- A tree as it can be told from what is written of it: texts that follow each other are one text,
and comments have a question mark for each character outside of the character set. -/
def Element.condensed (charset : Charset) : Element → Element
  | ⟨name, uri, attributes, children⟩ =>
    ⟨name, uri, attributes, Node.coalesce (Node.condensedAll charset children)⟩

/-- The same for nodes, but for texts that follow each other. -/
def Node.condensedAll (charset : Charset) : List Node → List Node
  | [] => []
  | .element child :: rest => .element (child.condensed charset) :: Node.condensedAll charset rest
  | .text content :: rest => .text content :: Node.condensedAll charset rest
  | .comment content :: rest =>
    .comment (commentText charset content) :: Node.condensedAll charset rest

end

section Nodes
variable {name : String} {uri : Option String} {attributes : List Attribute} {children : List Node}
  {child : Element} {content : String} {rest : List Node}

theorem readable_iff : Element.Readable ⟨name, uri, attributes, children⟩ ↔
    TagReadable name attributes children ∧
      (children ≠ [] → quoteAfter none (Utf8.encode name) = some none) ∧
        Node.ReadableAll children := Iff.rfl

theorem readableAll_element_iff : Node.ReadableAll (.element child :: rest) ↔
    child.Readable ∧ Node.ReadableAll rest := Iff.rfl

theorem readableAll_text_iff : Node.ReadableAll (.text content :: rest) ↔
    Node.ReadableAll rest := Iff.rfl

theorem tidy_iff : Element.Tidy ⟨name, uri, attributes, children⟩ ↔
    (∀ space, uri = some space → name ≠ "" ∧ (Utf8.encode name).getLast? ≠ some 0x2F) ∧
      Node.TidyAll children := Iff.rfl

theorem tidyAll_element_iff : Node.TidyAll (.element child :: rest) ↔
    child.Tidy ∧ Node.TidyAll rest := Iff.rfl

theorem tidyAll_text_iff : Node.TidyAll (.text content :: rest) ↔
    content ≠ "" ∧ (∀ text, rest.head? ≠ some (.text text)) ∧ Node.TidyAll rest := Iff.rfl

theorem not_tidyAll_comment : ¬ Node.TidyAll (.comment content :: rest) :=
  not_false

end Nodes

mutual

theorem neat_of_tidy (charset : Charset) :
    ∀ {root : Element}, root.Tidy → root.Neat charset
  | ⟨_, _, _, children⟩, h => by
    rw [Element.Neat]
    exact neatAll_of_tidy charset (tidy_iff.mp h).2

theorem neatAll_of_tidy (charset : Charset) :
    ∀ {nodes : List Node}, Node.TidyAll nodes → Node.NeatAll charset nodes
  | [], _ => by
    rw [Node.NeatAll]
    trivial
  | .element child :: rest, h => by
    rw [tidyAll_element_iff] at h
    rw [Node.NeatAll]
    exact ⟨neat_of_tidy charset h.1, neatAll_of_tidy charset h.2⟩
  | .text content :: rest, h => by
    rw [tidyAll_text_iff] at h
    rw [Node.NeatAll]
    exact ⟨h.1, h.2.1, neatAll_of_tidy charset h.2.2⟩
  | .comment content :: rest, h => absurd h not_tidyAll_comment

end

/-! ## Trees as they can be told from what is written -/

/-- A comment that the character set has is written as it is. -/
theorem commentText_of_encodable {charset : Charset} {data : String}
    (h : ∀ c ∈ data.toList, charset.canEncode c = true) : commentText charset data = data := by
  have hmap : data.toList.map (fun c => if charset.canEncode c then c else '?') =
      data.toList.map id := List.map_congr_left fun c hc => if_pos (h c hc)
  rw [commentText, hmap, List.map_id, String.ofList_toList]

/-- Question marks end no comment. -/
theorem isComment_commentText (charset : Charset) {data : String} (h : IsComment data) :
    IsComment (commentText charset data) := by
  have hhyphen {c : Char} (heq : (if charset.canEncode c then c else '?') = '-') : c = '-' := by
    split at heq
    · exact heq
    · cases heq
  rw [IsComment, commentText, String.toList_ofList]
  refine ⟨fun hpair => h.1 ?_, fun hlast => h.2 ?_⟩
  · obtain ⟨pair, hpair, hmap⟩ := List.infix_map_iff.mp hpair
    obtain ⟨c, others, rfl, hc, hothers⟩ := List.map_eq_cons_iff.mp hmap.symm
    obtain ⟨d, others, rfl, hd, hnil⟩ := List.map_eq_cons_iff.mp hothers
    rwa [hhyphen hc, hhyphen hd, List.map_eq_nil_iff.mp hnil] at hpair
  · rw [List.getLast?_map, Option.map_eq_some_iff] at hlast
    obtain ⟨c, hc, heq⟩ := hlast
    rw [hc, hhyphen heq]

mutual

theorem commented_of_neat {charset : Charset} :
    ∀ {root : Element}, root.Neat charset → root.Commented
  | ⟨_, _, _, children⟩, h => by
    rw [Element.Neat] at h
    rw [Element.Commented]
    exact commentedAll_of_neat h

theorem commentedAll_of_neat {charset : Charset} :
    ∀ {nodes : List Node}, Node.NeatAll charset nodes → Node.CommentedAll nodes
  | [], _ => by
    rw [Node.CommentedAll]
    trivial
  | .element child :: rest, h => by
    rw [Node.NeatAll] at h
    rw [Node.CommentedAll]
    exact ⟨commented_of_neat h.1, commentedAll_of_neat h.2⟩
  | .text content :: rest, h => by
    rw [Node.NeatAll] at h
    rw [Node.CommentedAll]
    exact commentedAll_of_neat h.2.2
  | .comment content :: rest, h => by
    rw [Node.NeatAll] at h
    rw [Node.CommentedAll]
    exact ⟨h.2.1, commentedAll_of_neat h.2.2⟩

end

mutual

/-- Neat trees are told from what is written as they are. -/
theorem condensed_of_neat {charset : Charset} :
    ∀ {root : Element}, root.Neat charset → root.condensed charset = root
  | ⟨_, _, _, children⟩, h => by
    rw [Element.Neat] at h
    rw [Element.condensed, coalesce_condensedAll_of_neat h]

theorem coalesce_condensedAll_of_neat {charset : Charset} : ∀ {nodes : List Node},
    Node.NeatAll charset nodes → Node.coalesce (Node.condensedAll charset nodes) = nodes
  | [], _ => by rw [Node.condensedAll, Node.coalesce]
  | .element child :: rest, h => by
    rw [Node.NeatAll] at h
    rw [Node.condensedAll, Node.coalesce, condensed_of_neat h.1, coalesce_condensedAll_of_neat h.2]
    nofun
  | .text content :: rest, h => by
    rw [Node.NeatAll] at h
    rw [Node.condensedAll, Node.coalesce, coalesce_condensedAll_of_neat h.2.2]
    exact Node.consText_of_head? h.1 h.2.1
  | .comment content :: rest, h => by
    rw [Node.NeatAll] at h
    rw [Node.condensedAll, Node.coalesce, coalesce_condensedAll_of_neat h.2.2,
      commentText_of_encodable h.1]
    nofun

end

mutual

theorem levels_condensed (charset : Charset) :
    ∀ root : Element, (root.condensed charset).levels = root.levels
  | ⟨_, _, _, children⟩ => by
    rw [Element.condensed, Element.levels_mk, Element.levels_mk, Node.levelsAll_coalesce,
      levelsAll_condensedAll charset children]

theorem levelsAll_condensedAll (charset : Charset) :
    ∀ nodes : List Node, Node.levelsAll (Node.condensedAll charset nodes) = Node.levelsAll nodes
  | [] => by rw [Node.condensedAll]
  | .element child :: rest => by
    simp only [Node.condensedAll, Node.levelsAll, levels_condensed charset child,
      levelsAll_condensedAll charset rest]
  | .text content :: rest => by
    simp only [Node.condensedAll, Node.levelsAll, levelsAll_condensedAll charset rest]
  | .comment content :: rest => by
    simp only [Node.condensedAll, Node.levelsAll, levelsAll_condensedAll charset rest]

end

/-! ## Plain names -/

/-- A name without white space, quotes, closing brackets and the bytes that end names. -/
def IsPlainName (name : String) : Prop :=
  name ≠ "" ∧ ∀ b ∈ Utf8.encode name, Markup.isSpace b = false ∧
    b ∉ [0x21, 0x22, 0x27, 0x2F, 0x3A, 0x3D, 0x3E, 0x3F]

mutual

/-- All names in an element are plain, and no attribute occurs twice or declares a namespace. -/
def Element.PlainNames : Element → Prop
  | ⟨name, _, attributes, children⟩ => IsPlainName name ∧
      (∀ first ∈ attributes, IsPlainName first.name ∧ first.name ≠ "xmlns") ∧
        (attributes.map (·.name)).Nodup ∧ Node.PlainNamesAll children

def Node.PlainNamesAll : List Node → Prop
  | [] => True
  | .element child :: rest => child.PlainNames ∧ Node.PlainNamesAll rest
  | .text _ :: rest => Node.PlainNamesAll rest
  | .comment _ :: rest => Node.PlainNamesAll rest

end

theorem isKey_of_plain {name : String} (plain : IsPlainName name) :
    AttributeList.IsKey (Utf8.encode name) := by
  have hne : Utf8.encode name ≠ [] := fun hnil => plain.1 (Utf8.encode_injective hnil)
  obtain ⟨first, rest, hbytes⟩ := List.exists_cons_of_ne_nil hne
  have hplain := plain.2
  rw [hbytes] at hplain ⊢
  refine ⟨first, rest, rfl, (hplain first List.mem_cons_self).1, fun b hb => ?_⟩
  obtain ⟨hspace, hspecial⟩ := hplain b (List.mem_cons_of_mem _ hb)
  simp only [List.mem_cons, not_or] at hspecial
  simp [AttributeList.isKey, hspace, hspecial]

theorem isPlain_of_plain {name : String} (plain : IsPlainName name) (hne : name ≠ "xmlns") :
    Scope.isPlain (Utf8.encode name) = true := by
  have hdeclarator : Utf8.encode name ≠ Scope.declarator := fun h => hne (Utf8.encode_injective h)
  have hcolon : Markup.after (Scope.declarator ++ Markup.ascii ":") (Utf8.encode name) = none := by
    cases hafter : Markup.after (Scope.declarator ++ Markup.ascii ":") (Utf8.encode name) with
    | none => rfl
    | some rest =>
      have hmem : (0x3A : UInt8) ∈ Utf8.encode name := by
        rw [Markup.after_eq_some hafter]
        exact List.mem_append_left _ (by decide)
      exact absurd (by decide) (plain.2 _ hmem).2
  unfold Scope.isPlain Scope.declared?
  rw [if_neg hdeclarator, hcolon]
  rfl

theorem quoteAfter_of_plainName {name : String} (plain : IsPlainName name) :
    quoteAfter none (Utf8.encode name) = some none := by
  refine Markup.quoteAfter_of_plain none (fun b hb => ?_) (by rintro _ ⟨⟩)
  have hspecial := (plain.2 b hb).2
  simp only [List.mem_cons, not_or] at hspecial
  simp [hspecial]

theorem tagReadable_of_plain {name : String} {attributes : List Attribute} (children : List Node)
    (plain : IsPlainName name)
    (keys : ∀ first ∈ attributes, IsPlainName first.name ∧ first.name ≠ "xmlns")
    (distinct : (attributes.map (·.name)).Nodup) : TagReadable name attributes children := by
  have hspecial (b : UInt8) (hb : b ∈ Utf8.encode name) := (plain.2 b hb).2
  simp only [List.mem_cons, not_or] at hspecial
  refine ⟨fun b hb => ⟨(plain.2 b hb).1, ?_⟩, fun b hb => ?_, fun hempty => absurd hempty plain.1,
    fun _ _ hlast => ?_, fun first hfirst => ?_, distinct, ?_⟩
  · exact (hspecial b hb).2.2.2.2.1
  · have hmem := hspecial b (List.mem_of_head? hb)
    exact ⟨hmem.1, hmem.2.2.2.1, hmem.2.2.2.2.2.2.2.1⟩
  · exact (hspecial _ (List.mem_of_getLast? hlast)).2.2.2.1 rfl
  · obtain ⟨hname, hne⟩ := keys first hfirst
    exact ⟨isKey_of_plain hname, isPlain_of_plain hname hne⟩
  · rw [Markup.quoteAfter_append, quoteAfter_of_plainName plain, Option.bind_some]
    clear distinct
    induction attributes with
    | nil => rfl
    | cons first rest ih =>
      rw [List.flatMap_cons, Markup.quoteAfter_append,
        quoteAfter_of_plainName (keys first List.mem_cons_self).1, Option.bind_some]
      exact ih fun other hmem => keys other (List.mem_cons_of_mem _ hmem)

mutual

theorem readable_of_plain : ∀ root : Element, root.PlainNames → root.Readable
  | ⟨_, _, _, children⟩, h => by
    rw [Element.PlainNames] at h
    obtain ⟨plain, keys, distinct, hchildren⟩ := h
    exact readable_iff.mpr ⟨tagReadable_of_plain children plain keys distinct,
      fun _ => quoteAfter_of_plainName plain, readableAll_of_plain children hchildren⟩

theorem readableAll_of_plain : ∀ nodes : List Node, Node.PlainNamesAll nodes →
    Node.ReadableAll nodes
  | [], _ => by
    rw [Node.ReadableAll]
    trivial
  | .element child :: rest, h => by
    rw [Node.PlainNamesAll] at h
    exact readableAll_element_iff.mpr ⟨readable_of_plain child h.1, readableAll_of_plain rest h.2⟩
  | .text content :: rest, h => by
    rw [Node.PlainNamesAll] at h
    exact readableAll_text_iff.mpr (readableAll_of_plain rest h)
  | .comment content :: rest, h => by
    rw [Node.PlainNamesAll] at h
    rw [Node.ReadableAll]
    exact readableAll_of_plain rest h

end

/-! ## Reading what was written -/

mutual

/-- What is read of an element that was written where some namespace holds: each element has the
namespace that was declared last. -/
def Element.readAs (charset : Charset) (outer : Option String) : Element → Element
  | ⟨name, uri, attributes, children⟩ =>
    ⟨name, readUri charset (Writing.innerScope outer uri), attributes,
      Node.readAllAs charset (Writing.innerScope outer uri) children⟩

def Node.readAllAs (charset : Charset) (outer : Option String) : List Node → List Node
  | [] => []
  | .element child :: rest =>
    .element (child.readAs charset outer) :: Node.readAllAs charset outer rest
  | .text content :: rest => .text content :: Node.readAllAs charset outer rest
  | .comment content :: rest => .comment content :: Node.readAllAs charset outer rest

end

mutual

theorem unqualified_readAs (charset : Charset) (outer : Option String) :
    ∀ root : Element, (root.readAs charset outer).unqualified = root.unqualified
  | ⟨_, _, _, children⟩ => by
    simp only [Element.readAs, Element.unqualified, unqualifiedAll_readAllAs charset _ children]

theorem unqualifiedAll_readAllAs (charset : Charset) (outer : Option String) :
    ∀ nodes : List Node,
      Node.unqualifiedAll (Node.readAllAs charset outer nodes) = Node.unqualifiedAll nodes
  | [] => by rw [Node.readAllAs]
  | .element child :: rest => by
    simp only [Node.readAllAs, Node.unqualifiedAll, unqualified_readAs charset outer child,
      unqualifiedAll_readAllAs charset outer rest]
  | .text content :: rest => by
    simp only [Node.readAllAs, Node.unqualifiedAll, unqualifiedAll_readAllAs charset outer rest]
  | .comment content :: rest => by
    simp only [Node.readAllAs, Node.unqualifiedAll, unqualifiedAll_readAllAs charset outer rest]

end

mutual

theorem levels_readAs (charset : Charset) (outer : Option String) :
    ∀ root : Element, (root.readAs charset outer).levels = root.levels
  | ⟨_, _, _, children⟩ => by
    simp only [Element.readAs, Element.levels, levelsAll_readAllAs charset _ children]

theorem levelsAll_readAllAs (charset : Charset) (outer : Option String) :
    ∀ nodes : List Node, Node.levelsAll (Node.readAllAs charset outer nodes) = Node.levelsAll nodes
  | [] => by rw [Node.readAllAs]
  | .element child :: rest => by
    simp only [Node.readAllAs, Node.levelsAll, levels_readAs charset outer child,
      levelsAll_readAllAs charset outer rest]
  | .text content :: rest => by
    simp only [Node.readAllAs, Node.levelsAll, levelsAll_readAllAs charset outer rest]
  | .comment content :: rest => by
    simp only [Node.readAllAs, Node.levelsAll, levelsAll_readAllAs charset outer rest]

end

theorem readAllAs_consText (charset : Charset) (outer : Option String) (data : String)
    (nodes : List Node) : Node.readAllAs charset outer (Node.consText data nodes) =
      Node.consText data (Node.readAllAs charset outer nodes) := by
  unfold Node.consText
  split
  · rfl
  · cases nodes with
    | nil => simp only [Node.readAllAs]
    | cons node rest => cases node <;> simp only [Node.readAllAs]

theorem elementBytes_head (charset : Charset) (outer : Option String) (root : Element) :
    ∃ rest, elementBytes charset outer root = 0x3C :: rest := by
  cases root
  rw [elementBytes]
  exact ⟨_, rfl⟩

/-- Where no text comes first, a bracket does. -/
theorem contentBytes_head (charset : Charset) (outer : Option String) {nodes : List Node}
    {behind : Bytes} (hhead : ∀ text, nodes.head? ≠ some (.text text))
    (hbehind : ∃ rest, behind = 0x3C :: rest) :
    ∃ rest, contentBytes charset outer nodes ++ behind = 0x3C :: rest := by
  cases nodes with
  | nil => exact hbehind
  | cons node others =>
    cases node with
    | element child =>
      obtain ⟨rest, hrest⟩ := elementBytes_head charset outer child
      rw [contentBytes_element, hrest]
      exact ⟨_, rfl⟩
    | text content => exact absurd rfl (hhead content)
    | comment content =>
      rw [contentBytes_comment]
      exact ⟨_, rfl⟩

section Read
variable {charset : Charset} {context : Parsing.Context}

/-- The name in an end tag is the one in a readable start tag. -/
theorem content_endTag {scope : Scope} {depth : Nat} {name : String} {attributes : List Attribute}
    {children : List Node} (readable : TagReadable name attributes children)
    (hquote : quoteAfter none (Utf8.encode name) = some none) (tail : Bytes) :
    Content context scope depth ⟨Utf8.encode name, name⟩ (endTag name ++ tail) [] tail := by
  have hname : Markup.closingName (Utf8.encode name) = Utf8.encode name := by
    unfold Markup.closingName
    split
    · rfl
    · unfold Markup.trimEnd
      have hdrop : (Utf8.encode name).reverse.dropWhile Markup.isSpace =
          (Utf8.encode name).reverse := by
        cases hreverse : (Utf8.encode name).reverse with
        | nil => rfl
        | cons b rest =>
          have hmem : b ∈ Utf8.encode name := by
            rw [← List.mem_reverse, hreverse]
            exact List.mem_cons_self
          rw [List.dropWhile_cons_of_neg (by simp [(readable.plain b hmem).1])]
      rw [hdrop, List.reverse_reverse]
  have hstarts : Parsing.Starts (endTag name ++ tail) (.closing (Utf8.encode name)) tail := by
    refine ⟨by simp [endTag], ?_⟩
    have htext : endTag name ++ tail = 0x3C :: 0x2F :: (Utf8.encode name ++ 0x3E :: tail) := by
      simp [endTag]
    rw [htext, Markup.next_of_closing hquote, hname]
  exact .closing hstarts

theorem content_comment {scope : Scope} {depth : Nat} {opened : Parsing.Open} {data : String}
    {behind tail : Bytes} {pieces : List Node} (hcomment : IsComment data)
    (h : Content context scope depth opened behind pieces tail) :
    Content context scope depth opened (Utf8.encode "<!--" ++
      Utf8.encode (commentText charset data) ++ Utf8.encode "-->" ++ behind)
        (.comment (commentText charset data) :: pieces) tail := by
  have hleaf : Parsing.leaf? (.comment (Utf8.encode (commentText charset data))) =
      some (.ok (.comment (commentText charset data))) := by
    rw [Parsing.leaf?, Parsing.utf8_encode]
    rfl
  rw [List.append_assoc, List.append_assoc]
  exact .leaf (Parsing.starts_comment (isComment_commentText charset hcomment) behind) hleaf h

theorem content_escape {scope : Scope} {depth : Nat} {opened : Parsing.Open} {run : String}
    {behind tail : Bytes} {pieces nodes : List Node} (hbehind : ∃ rest, behind = 0x3C :: rest)
    (h : Content context scope depth opened behind pieces tail)
    (hpieces : Node.coalesce pieces = nodes) : ∃ pieces, Content context scope depth opened
      (Utf8.encode (escape charset false run) ++ behind) pieces tail ∧
        Node.coalesce pieces = Node.consText run nodes := by
  obtain ⟨rest, hbehind⟩ := hbehind
  obtain ⟨texts, hjoin, hyields⟩ : ∃ texts, String.join texts = run ∧
      Parsing.Yields context scope depth opened (Utf8.encode (escape charset false run)) behind
        texts := Parsing.yields_escape charset run hbehind
  exact ⟨texts.map .text ++ pieces, (hyields _ _).mpr ⟨pieces, rfl, h⟩,
    by rw [Node.coalesce_texts, hjoin, hpieces]⟩

mutual

/-- An element with readable names is read again as far as it can be told from what is written,
with the namespaces that hold. -/
theorem isElement_readAs : ∀ {root : Element} {scope : Scope} {outer : Option String}
    {depth : Nat} (tail : Bytes), root.Readable → root.Commented → Holds charset scope outer →
      depth + root.levels ≤ context.maxDepth →
        IsElement context scope depth (elementBytes charset outer root ++ tail)
          ((root.condensed charset).readAs charset outer) tail
  | ⟨name, uri, attributes, children⟩, scope, outer, depth, tail, hreadable, hcommented, holds,
      hdepth => by
    obtain ⟨readable, hquote, hinside⟩ := readable_iff.mp hreadable
    rw [Element.Commented] at hcommented
    rw [Element.levels_mk] at hdepth
    have hstarts (rest : Bytes) : Parsing.Starts (0x3C :: (tagBytes charset name
        (shown outer uri attributes) ++ slash children ++ 0x3E :: rest)) _ rest :=
      starts_tagBytes readable rest
    obtain ⟨inner, hinner, holdsInner⟩ : ∃ inner, Parsing.innerScope scope ⟨Utf8.encode name,
        (shown outer uri attributes).flatMap (attributeBytes charset)⟩ = .ok inner ∧
          Holds charset inner (Writing.innerScope outer uri) := innerScope_shown holds readable
    have hdeep : depth < context.maxDepth := by omega
    have hstart := startTag_tagBytes holdsInner readable hdeep
    by_cases hchildren : children = []
    · subst hchildren
      rw [elementBytes_empty, Element.condensed, Node.condensedAll, Node.coalesce, Element.readAs,
        Node.readAllAs]
      refine .empty ?_ hinner hstart
      simpa [slash, startPiece] using hstarts tail
    · have hlevels : depth + 1 + Node.levelsAll children ≤ context.maxDepth := by omega
      have hhead : ∃ rest, endTag name ++ tail = 0x3C :: rest := ⟨_, rfl⟩
      obtain ⟨pieces, hcontent, hpieces⟩ := content_readAllAs "" hinside hcommented holdsInner
        hlevels hhead (content_endTag readable (hquote hchildren) tail)
      have hempty : Utf8.encode (escape charset false "") = [] := rfl
      rw [Node.consText_empty] at hpieces
      rw [hempty, List.nil_append] at hcontent
      rw [elementBytes_of_ne hchildren, Element.condensed, Element.readAs, ← hpieces]
      refine .opening ?_ hinner hstart hcontent
      simpa [slash, startPiece, hchildren] using hstarts
        (contentBytes charset (Writing.innerScope outer uri) children ++ (endTag name ++ tail))

/-- Nodes with readable names are read again behind a run of character data, up to an end tag. -/
theorem content_readAllAs : ∀ {nodes : List Node} {scope : Scope} {outer : Option String}
    {depth : Nat} {opened : Parsing.Open} {behind tail : Bytes} (run : String),
      Node.ReadableAll nodes → Node.CommentedAll nodes → Holds charset scope outer →
        depth + Node.levelsAll nodes ≤ context.maxDepth → (∃ rest, behind = 0x3C :: rest) →
          Content context scope depth opened behind [] tail →
            ∃ pieces, Content context scope depth opened (Utf8.encode (escape charset false run) ++
                (contentBytes charset outer nodes ++ behind)) pieces tail ∧
              Node.coalesce pieces = Node.consText run (Node.readAllAs charset outer
                (Node.coalesce (Node.condensedAll charset nodes)))
  | [], _, _, _, _, _, _, _, _, _, _, _, hbehind, hend => by
    rw [Node.condensedAll, Node.coalesce, Node.readAllAs]
    exact content_escape hbehind hend rfl
  | .element child :: rest, scope, outer, depth, opened, behind, tail, run, hreadable, hcommented,
      holds, hdepth, hbehind, hend => by
    rw [readableAll_element_iff] at hreadable
    rw [Node.CommentedAll] at hcommented
    rw [Node.levelsAll_element] at hdepth
    have hlevels : depth + child.levels ≤ context.maxDepth := by omega
    have hothers : depth + Node.levelsAll rest ≤ context.maxDepth := by omega
    obtain ⟨pieces, hpieces, hsame⟩ := content_readAllAs "" hreadable.2 hcommented.2 holds hothers
      hbehind hend
    obtain ⟨bytes, hbytes⟩ := elementBytes_head charset outer child
    rw [Node.condensedAll, Node.coalesce, Node.readAllAs, contentBytes_element, List.append_assoc]
    · refine content_escape ⟨_, by rw [hbytes]; rfl⟩ (Parsing.content_cons_element
        (isElement_readAs _ hreadable.1 hcommented.1 holds hlevels) hpieces) ?_
      rw [Node.coalesce, hsame, Node.consText_empty]
      nofun
    · nofun
  | .text data :: rest, scope, outer, depth, opened, behind, tail, run, hreadable, hcommented,
      holds, hdepth, hbehind, hend => by
    rw [readableAll_text_iff] at hreadable
    rw [Node.CommentedAll] at hcommented
    rw [Node.levelsAll] at hdepth
    -- The text goes on with the run.
    have hrun : Utf8.encode (escape charset false (run ++ data)) =
        Utf8.encode (escape charset false run) ++ Utf8.encode (escape charset false data) := by
      rw [escape_append, Utf8.encode_append]
    rw [Node.condensedAll, Node.coalesce, readAllAs_consText, ← Node.consText_append,
      contentBytes_text, List.append_assoc, ← List.append_assoc, ← hrun]
    exact content_readAllAs (run ++ data) hreadable hcommented holds hdepth hbehind hend
  | .comment data :: rest, scope, outer, depth, opened, behind, tail, run, hreadable, hcommented,
      holds, hdepth, hbehind, hend => by
    rw [Node.ReadableAll] at hreadable
    rw [Node.CommentedAll] at hcommented
    rw [Node.levelsAll] at hdepth
    obtain ⟨pieces, hpieces, hsame⟩ := content_readAllAs "" hreadable hcommented.2 holds hdepth
      hbehind hend
    rw [Node.condensedAll, Node.coalesce, Node.readAllAs, contentBytes_comment, List.append_assoc]
    · refine content_escape ⟨_, rfl⟩ (content_comment hcommented.1 hpieces) ?_
      rw [Node.coalesce, hsame, Node.consText_empty]
      nofun
    · nofun

end

end Read

end BinaryXml
