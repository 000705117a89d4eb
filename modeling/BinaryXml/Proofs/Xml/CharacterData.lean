import BinaryXml.Conversion
import BinaryXml.Proofs.Document.Equality
import BinaryXml.Proofs.Xml.Comments
import BinaryXml.Proofs.Xml.References
import BinaryXml.Proofs.Xml.Slots

/-! # Character data in any spelling

* `Piece`: raw characters, a CDATA section or a reference.
* `Piece.spelled`: pieces stand for their characters.
* `Slot.TakesPieces`: between two tags, only the characters of pieces matter.
* `takesPieces_of_parseDocument`: this holds for all elements of all documents.
-/

namespace BinaryXml

open Parsing

set_option autoImplicit false

/-- A piece of character data that may stand in the content of an element. -/
inductive Piece where
  | raw (chars : List Char) (plain : ∀ c ∈ chars, c ≠ '<' ∧ c ≠ '&')
  | cdata (chars : List Char) (closed : ¬ [']', ']', '>'] <:+: chars)
  | reference (name : List Char) (c : Char) (denotes : Reference.Denotes name c)

namespace Piece

/-- What is written for a piece. -/
def source : Piece → List Char
  | raw chars _ => chars
  | cdata chars _ => "<![CDATA[".toList ++ (chars ++ "]]>".toList)
  | reference name _ _ => '&' :: (name ++ [';'])

/-- What a piece stands for. -/
def chars : Piece → List Char
  | raw chars _ => chars
  | cdata chars _ => chars
  | reference _ c _ => [c]

def bytes (pieces : List Piece) : Bytes :=
  Utf8.encodeChars (pieces.flatMap source)

/-- The nodes that pieces are: one text, or none. -/
def nodes (pieces : List Piece) : List Node :=
  match pieces.flatMap chars with
  | [] => []
  | first :: others => [.text (String.ofList (first :: others))]

end Piece

/-! ## CDATA sections -/

namespace Parsing

theorem starts_cdata {chars : List Char} (closed : ¬ [']', ']', '>'] <:+: chars) (tail : Bytes) :
    Starts (Markup.ascii "<![CDATA[" ++ (Utf8.encodeChars chars ++ (Markup.ascii "]]>" ++ tail)))
      (.cdata (Utf8.encodeChars chars)) tail := by
  have hopening : Markup.ascii "<![CDATA[" = 0x3C :: 0x21 :: Markup.ascii "[CDATA[" := rfl
  have hcut : Markup.cut (Markup.ascii "]]>")
      (Utf8.encodeChars chars ++ (Markup.ascii "]]>" ++ tail)) =
        some (Utf8.encodeChars chars, tail) :=
    Markup.cut_doubled (by decide) (by decide) closed tail
  rw [hopening]
  generalize Utf8.encodeChars chars ++ (Markup.ascii "]]>" ++ tail) = inner at hcut
  refine ⟨List.cons_ne_nil _ _, ?_⟩
  change (Markup.after (Markup.ascii "[CDATA[") (Markup.ascii "[CDATA[" ++ inner) >>= fun text =>
    Markup.cut _ text >>= fun found => some (Markup.cdata found.1, found.2)) = _
  rw [Markup.after_front, Option.bind_eq_bind, Option.bind_some, hcut]
  rfl

end Parsing

/-! ## Pieces -/

namespace Piece

section Spelled
variable {context : Context} {scope : Scope} {depth : Nat} {opened : Open}

theorem spelled_raw {chars : List Char} (plain : ∀ c ∈ chars, c ≠ '<' ∧ c ≠ '&') :
    Spelled context scope depth opened (Utf8.encodeChars chars) chars := by
  induction chars with
  | nil => exact .nil
  | cons c chars ih =>
    have hc := plain c List.mem_cons_self
    exact .char (by simp [hc]) (ih fun d hd => plain d (List.mem_cons_of_mem _ hd))

theorem spelled_cdata {chars : List Char} (closed : ¬ [']', ']', '>'] <:+: chars) :
    Spelled context scope depth opened
      (Utf8.encodeChars ("<![CDATA[".toList ++ (chars ++ "]]>".toList))) chars := by
  have hbytes : Utf8.encodeChars ("<![CDATA[".toList ++ (chars ++ "]]>".toList)) =
      Markup.ascii "<![CDATA[" ++ (Utf8.encodeChars chars ++ Markup.ascii "]]>") := by
    rw [Utf8.encodeChars_append, Utf8.encodeChars_append]
    rfl
  have hopening : Markup.ascii "<![CDATA[" = 0x3C :: 0x21 :: Markup.ascii "[CDATA[" := rfl
  have hsingle : leaf? (.cdata (Utf8.encodeChars chars)) =
      some (.ok (.text (String.ofList chars))) := by
    have hencode : Utf8.encodeChars chars = Utf8.encode (String.ofList chars) := by
      rw [Utf8.encode, String.toList_ofList]
    rw [leaf?, hencode, utf8_encode]
    rfl
  have hpiece : Spelled context scope depth opened ((0x3C :: (0x21 :: Markup.ascii "[CDATA[" ++
      (Utf8.encodeChars chars ++ Markup.ascii "]]>"))) ++ []) (chars ++ []) := by
    refine .piece rfl (fun tail => yields_of_starts ?_ hsingle) .nil
    rw [← List.cons_append, ← hopening, List.append_assoc, List.append_assoc]
    exact starts_cdata closed tail
  rw [hbytes, hopening]
  rwa [List.append_nil, List.append_nil] at hpiece

theorem spelled (pieces : List Piece) :
    Spelled context scope depth opened (bytes pieces) (pieces.flatMap chars) := by
  unfold bytes
  induction pieces with
  | nil => exact .nil
  | cons piece pieces ih =>
    rw [List.flatMap_cons, List.flatMap_cons, Utf8.encodeChars_append]
    refine Spelled.append ?_ ih
    cases piece with
    | raw chars plain => exact spelled_raw plain
    | cdata chars closed => exact spelled_cdata closed
    | reference name c denotes => exact Spelled.reference denotes.names.inContent denotes.names.not_mark

end Spelled

theorem coalesce_eq_nodes {texts : List String} {pieces : List Piece}
    (h : String.join texts = String.ofList (pieces.flatMap chars)) :
    Node.coalesce (texts.map .text) = nodes pieces := by
  unfold nodes
  cases hchars : pieces.flatMap chars with
  | nil =>
    have hcoalesce := Node.coalesce_texts texts []
    rw [List.append_nil, h, hchars] at hcoalesce
    exact hcoalesce
  | cons first others => exact Node.coalesce_of_join (h.trans (by rw [hchars])) (by simp)

end Piece

/-! ## Elements with pieces between their tags -/

section Document
variable {options : EncodeOptions} {text : Bytes} {document : Document} {path : List Nat}
  {element : Element}

/-- The element at the end of a path has the text that pieces between its tags stand for, and
everything else stays as it is. -/
structure Slot.TakesPieces (options : EncodeOptions) (document : Document) (path : List Nat)
    (element : Element) (slot : Slot) : Prop where
  parse : ∀ pieces,
    parseDocument options.language options.maxDepth { slot with inner := Piece.bytes pieces }.text =
      .ok ⟨document.root.update (fun _ => { element with children := Piece.nodes pieces }) path⟩
  alike : ∀ pieces pieces', pieces.flatMap Piece.chars = pieces'.flatMap Piece.chars →
    parseDocument options.language options.maxDepth { slot with inner := Piece.bytes pieces }.text =
        parseDocument options.language options.maxDepth
          { slot with inner := Piece.bytes pieces' }.text ∧
      encode options { slot with inner := Piece.bytes pieces }.text =
        encode options { slot with inner := Piece.bytes pieces' }.text
  present : ∀ pieces, slot.inner = Piece.bytes pieces → element.children = Piece.nodes pieces

theorem Slot.Site.parse_pieces {language : Language} {maxDepth : Nat} {scope inner : Scope}
    {depth : Nat} {head : Element} {found : List Node} {put : Element → Document} {slot : Slot}
    (site : slot.Site ⟨language, maxDepth⟩ scope inner depth head found
      (fun text document => parseDocument language maxDepth text = .ok document) put)
    (pieces : List Piece) :
    parseDocument language maxDepth { slot with inner := Piece.bytes pieces }.text =
      .ok (put { head with children := Piece.nodes pieces }) := by
  obtain ⟨texts, hjoin, yields⟩ : ∃ texts,
      String.join texts = String.ofList (pieces.flatMap Piece.chars) ∧
        Yields ⟨language, maxDepth⟩ inner (depth + 1) ⟨slot.tagName, head.name⟩
          (Piece.bytes pieces) slot.rest texts := (Piece.spelled pieces).yields rfl rfl
  refine (site.reads_iff (fun nodes => nodes = texts.map .text) (fun nodes last => ?_) _).mpr
    ⟨_, rfl, ?_⟩
  · rw [yields nodes last]
    simp only [site.shape.content_rest_iff]
    constructor
    · rintro ⟨_, rfl, rfl, hlast⟩
      exact ⟨List.append_nil _, hlast⟩
    · rintro ⟨rfl, hlast⟩
      exact ⟨[], (List.append_nil _).symm, rfl, hlast⟩
  · rw [close, Piece.coalesce_eq_nodes hjoin]

/-- Character data is read without loss: between the tags of any element of any document, pieces
make one text with their characters, or none if there are no characters. An element that is a single
tag has nothing between its tags. -/
theorem takesPieces_of_parseDocument
    (h : parseDocument options.language options.maxDepth text = .ok document)
    (hat : document.root.at? path = some element) :
    Slot.IsSingle options.language options.maxDepth text document path element ∨
    ∃ slot : Slot, slot.text = text ∧ slot.Shape ∧
      slot.TakesPieces options document path element := by
  rcases Slot.exists_slot h hat with single |
    ⟨scope, inner, depth, head, found, slot, rfl, rfl, site⟩
  · exact .inl single
  refine .inr ⟨slot, rfl, site.shape, site.parse_pieces, fun pieces pieces' hsame => ?_,
    fun pieces hinner => ?_⟩
  · have hnodes : Piece.nodes pieces = Piece.nodes pieces' := by
      rw [Piece.nodes, Piece.nodes, hsame]
    have hparse := (site.parse_pieces pieces).trans
      ((congrArg _ (by rw [hnodes])).trans (site.parse_pieces pieces').symm)
    exact ⟨hparse, by rw [encode, encode, Encoding.runText, Encoding.runText, hparse]⟩
  · have hslot : { slot with inner := Piece.bytes pieces } = slot := by rw [← hinner]
    have hparse := site.parse_pieces pieces
    rw [hslot, h] at hparse
    have hroot : document.root = document.root.update (fun _ =>
        { head with children := Piece.nodes pieces }) path :=
      congrArg Document.root (Except.ok.inj hparse)
    have hupdated := Element.at?_update
      (fun _ => { head with children := Piece.nodes pieces }) hat
    rw [← hroot, hat] at hupdated
    exact congrArg Element.children (Option.some.inj hupdated)

/-- The inner element has character data of every kind between its tags. -/
def spelledText : Bytes :=
  Utf8.encode ("<Sync xmlns=\"AirSync:\">\n<Add k=\"v\">a]]&lt;<![CDATA[&]b]]><![CDATA[]]>" ++
    "&#x63;&#00100;</Add></Sync>")

def spelledDocument : Document :=
  ⟨⟨"Sync", some "AirSync:", [],
    [.text "\n", .element ⟨"Add", some "AirSync:", [⟨"k", "v"⟩], [.text "a]]<&]bcd"]⟩]⟩⟩

theorem takesPieces_spelledText :
    parseDocument ActiveSync.language defaultMaxDepth spelledText = .ok spelledDocument ∧
      ∃ slot : Slot, slot.text = spelledText ∧ slot.Shape ∧
        slot.TakesPieces {} spelledDocument [0]
          ⟨"Add", some "AirSync:", [⟨"k", "v"⟩], [.text "a]]<&]bcd"]⟩ := by
  have hparse : parseDocument ActiveSync.language defaultMaxDepth spelledText =
      .ok spelledDocument := by
    decide +kernel
  refine ⟨hparse, ?_⟩
  rcases @takesPieces_of_parseDocument {} _ _ [0] _ hparse rfl with single | h
  · cases single.children
  · exact h

end Document

end BinaryXml
