import BinaryXml.Proofs.Document.Joined
import BinaryXml.Proofs.Stream.Canonical

/-! # White space that is taken away

The encoder takes it away text by text, the decoder after it has joined the texts that follow each
other. Where no text is next to another one that is the same.

* `Node.TextsApart`: no text is next to another one, whatever comments stand between.
* `readBack_stripped`: a tree that was stripped is read as the tree is with its white space taken
  away.
* `decodeDocument_of_stripped`: so it is with documents.
-/

namespace BinaryXml

set_option autoImplicit false

/-! ## Texts that stand apart -/

namespace Node

def isComment : Node → Bool
  | .comment _ => true
  | _ => false

/-- No text among some nodes is next to another one, or has only comments between. -/
def TextsApart (nodes : List Node) : Prop :=
  (nodes.filter (!·.isComment)).IsChain fun first second => ¬ (first.IsText ∧ second.IsText)

theorem TextsApart.tail {node : Node} {rest : List Node} (h : TextsApart (node :: rest)) :
    TextsApart rest := by
  cases node with
  | element child => exact List.IsChain.tail h
  | text content => exact List.IsChain.tail h
  | comment content => exact h

theorem strippedAll_text (whitespace : Whitespace) (content : String) (rest : List Node) :
    strippedAll whitespace (.text content :: rest) =
      (whitespace.apply content).toList.map .text ++ strippedAll whitespace rest := by
  rw [strippedAll]
  cases whitespace.apply content <;> rfl

end Node

namespace Encoding

theorem readBackAll_texts (language : Language) (whitespace : Whitespace) (page : UInt8)
    (run : List String) (rest : List Node) :
    readBackAll language whitespace page (run.map .text ++ rest) =
      (run.map .text ++ (readBackAll language whitespace page rest).1,
        (readBackAll language whitespace page rest).2) := by
  induction run with
  | nil => rfl
  | cons text run ih =>
    rw [List.map_cons, List.cons_append, readBackAll, ih]
    rfl

section Stripped
variable {language : Language}

/-- Behind a text there is another node first, comments aside, and so it is in what is read. -/
theorem head?_readBackAll_stripped {written reading : Whitespace} {page : UInt8} {content : String}
    {rest : List Node} (h : Node.TextsApart (.text content :: rest)) : ∀ text,
      (readBackAll language reading page (Node.strippedAll written rest)).1.head? ≠
        some (.text text) := by
  induction rest with
  | nil => simp [Node.strippedAll, readBackAll]
  | cons node rest ih =>
    cases node with
    | element child => simp [Node.strippedAll, readBackAll]
    | text next => exact absurd ⟨trivial, trivial⟩ (List.isChain_cons_cons.mp h).1
    | comment comment =>
      rw [Node.strippedAll]
      exact ih h

mutual

theorem readBack_stripped : ∀ (root : Element) (page : UInt8),
    (root.Every fun element => Node.TextsApart element.children) →
      readBack language .preserve page (root.stripped .strip) =
        readBack language .strip page (root.stripped .preserve)
  | ⟨name, uri, attributes, children⟩, page, h => by
    obtain ⟨hapart, hinside⟩ := Element.every_iff.mp h
    obtain ⟨hchildren, hpage⟩ := arrange_readBackAll_stripped children
      (pageAfter page (language.tagCode? uri name page)) hinside hapart
    rw [Element.stripped, Element.stripped, readBack, readBack]
    simp only [hchildren, hpage]

theorem arrange_readBackAll_stripped : ∀ (nodes : List Node) (page : UInt8),
    Node.EveryAll (fun element => Node.TextsApart element.children) nodes → Node.TextsApart nodes →
      Decoding.arrange .preserve (readBackAll language .preserve page
          (Node.strippedAll .strip nodes)).1 =
        Decoding.arrange .strip (readBackAll language .strip page
          (Node.strippedAll .preserve nodes)).1 ∧
      (readBackAll language .preserve page (Node.strippedAll .strip nodes)).2 =
        (readBackAll language .strip page (Node.strippedAll .preserve nodes)).2
  | [], _, _, _ => by
    simp only [Node.strippedAll, readBackAll, arrange_nil, and_self]
  | .element child :: rest, page, h, hapart => by
    obtain ⟨hchild, hinside⟩ := Node.everyAll_element_iff.mp h
    rw [Node.strippedAll, Node.strippedAll, readBackAll, readBackAll, readBack_stripped child page hchild]
    obtain ⟨hrest, hpage⟩ := arrange_readBackAll_stripped rest
      (readBack language .strip page (child.stripped .preserve)).2 hinside hapart.tail
    dsimp only
    rw [Decoding.arrange_node _ (by simp), Decoding.arrange_node _ (by simp), hrest]
    exact ⟨rfl, hpage⟩
  | .text content :: rest, page, h, hapart => by
    obtain ⟨hrest, hpage⟩ := arrange_readBackAll_stripped rest page
      (Node.everyAll_text_iff.mp h) hapart.tail
    rw [Node.strippedAll_text, Node.strippedAll_text, readBackAll_texts, readBackAll_texts]
    refine ⟨?_, hpage⟩
    rw [Decoding.arrange_texts _ (head?_readBackAll_stripped hapart),
      Decoding.arrange_texts _ (head?_readBackAll_stripped hapart), hrest, Whitespace.join_apply,
      Whitespace.join_apply, Whitespace.preserve_apply_kept, Whitespace.kept_preserve]
  | .comment _ :: rest, page, h, hapart => by
    rw [Node.strippedAll, Node.strippedAll]
    exact arrange_readBackAll_stripped rest page (Node.everyAll_comment_iff.mp h) hapart

end

end Stripped

end Encoding

namespace Document

open Encoding

theorem Encodable.of_whitespace {options : EncodeOptions} {document : Document}
    {whitespace : Whitespace} (h : document.Encodable { options with whitespace })
    (other : Whitespace) : document.Encodable { options with whitespace := other } :=
  ⟨h.version, h.header, h.levels, h.writable⟩

/-- White space may be taken away before a document is written or after it is read. -/
theorem decodeDocument_of_stripped {options : EncodeOptions} {reading : DecodeOptions}
    {document : Document} (regular : options.language.Regular)
    (hlanguage : reading.language = options.language)
    (hencoding : reading.opaqueEncoding = options.opaqueEncoding)
    (hdepth : options.maxDepth ≤ reading.maxDepth)
    (hapart : document.root.Every fun element => Node.TextsApart element.children)
    (hstrip : document.Affordable { options with whitespace := .strip })
    (hpreserve : document.Affordable { options with whitespace := .preserve }) :
    ((∃ stream, encodeDocument { options with whitespace := .strip } document = .ok stream) ↔
      ∃ stream, encodeDocument { options with whitespace := .preserve } document = .ok stream) ∧
    ∀ stripped preserved,
      encodeDocument { options with whitespace := .strip } document = .ok stripped →
      encodeDocument { options with whitespace := .preserve } document = .ok preserved →
      ∃ read, decodeDocument { reading with whitespace := .preserve } stripped = .ok read ∧
        decodeDocument { reading with whitespace := .strip } preserved = .ok read := by
  constructor
  · rw [exists_encodeDocument_iff hstrip, exists_encodeDocument_iff hpreserve]
    -- A blank character is not a zero character, so what can be written is the same for both.
    exact ⟨fun h => h.of_whitespace .preserve, fun h => h.of_whitespace .strip⟩
  · intro stripped preserved hstripped hpreserved
    have hfront := @Encoding.stream_of_encode { options with whitespace := .strip }
      { reading with whitespace := .preserve } document stripped regular hlanguage hencoding
      (Nat.le_trans (Encoding.levels_le_of_encode hstripped) hdepth) hstripped
    have hback := @Encoding.stream_of_encode { options with whitespace := .preserve }
      { reading with whitespace := .strip } document preserved regular hlanguage hencoding
      (Nat.le_trans (Encoding.levels_le_of_encode hpreserved) hdepth) hpreserved
    rw [Encoding.readBack_stripped document.root 0 hapart] at hfront
    exact ⟨_, Decoding.run_of_stream hfront, Decoding.run_of_stream hback⟩

/-- A document with blank text, and with blanks around a text and around data. -/
def padded : Document :=
  ⟨⟨"Sync", some "AirSync:", [], [
    .text " ", .comment "c",
    .element ⟨"ConversationId", some "Email2:", [], [.comment "", .text " AAEC\n"]⟩,
    .text " a ", .comment "b"]⟩⟩

/-- The stream without its white space, in which the data is opaque. -/
def paddedStripped : Bytes := [
  0x03, 0x01, 0x6A, 0x00, 0x45, 0x00, 0x16, 0x49, 0xC3, 0x03, 0x00, 0x01, 0x02, 0x01, 0x03, 0x61,
  0x00, 0x01]

/-- The stream with its white space, in which the data is a string. -/
def paddedPreserved : Bytes := [
  0x03, 0x01, 0x6A, 0x00, 0x45, 0x03, 0x20, 0x00, 0x00, 0x16, 0x49, 0x03, 0x20, 0x41, 0x41, 0x45,
  0x43, 0x0A, 0x00, 0x01, 0x03, 0x20, 0x61, 0x20, 0x00, 0x01]

theorem decodeDocument_of_stripped_padded :
    encodeDocument { whitespace := .strip } padded = .ok paddedStripped ∧
      encodeDocument { whitespace := .preserve } padded = .ok paddedPreserved ∧
        ∃ read, decodeDocument { whitespace := .preserve } paddedStripped = .ok read ∧
          decodeDocument { whitespace := .strip } paddedPreserved = .ok read := by
  have hstripped : encodeDocument { whitespace := .strip } padded = .ok paddedStripped := by
    decide +kernel
  have hpreserved : encodeDocument { whitespace := .preserve } padded = .ok paddedPreserved := by
    decide +kernel
  have hapart : padded.root.Every fun element => Node.TextsApart element.children := by
    simp [padded, Element.every_iff, Node.EveryAll, Node.TextsApart, Node.isComment, Node.IsText]
  have hstrip : padded.Affordable { whitespace := .strip } := by decide +kernel
  have hpreserve : padded.Affordable { whitespace := .preserve } := by decide +kernel
  refine ⟨hstripped, hpreserved, ?_⟩
  exact (@decodeDocument_of_stripped {} {} padded ActiveSync.language_regular rfl rfl
    (Nat.le_refl _) hapart hstrip hpreserve).2 _ _ hstripped hpreserved

end Document

end BinaryXml
