import BinaryXml.Proofs.Document.Joined
import BinaryXml.Proofs.Document.Uncommented
import BinaryXml.Proofs.Stream.Canonical
import BinaryXml.Proofs.Stream.Depth
import BinaryXml.Proofs.Stream.Stripping

/-! # Comments of documents that are written

Comments are not written, and what was kept apart by them is one text when it is read. The encoder
trims each text for itself, though.

* `encodable_uncommented_iff`: comments are never the reason why a document is written or not.
* `readBack_uncommented`: without them the same is read, unless white space was taken away from a
  seam between two texts.
* `decodeDocument_uncommented`: that is the only difference they make.
-/

namespace BinaryXml

open Grammar

set_option autoImplicit false

namespace Encoding

/-! ## What can be written -/

section Writable
variable {language : Language}

mutual

theorem pagesAfter_uncommented : ∀ (root : Element) (pages : Pages),
    pagesAfter language pages root.uncommented = pagesAfter language pages root
  | ⟨_, _, _, children⟩, _ => by
    rw [Element.uncommented, pagesAfter, pagesAfter, pagesAfterAll_uncommentedAll children]

theorem pagesAfterAll_uncommentedAll : ∀ (nodes : List Node) (pages : Pages),
    pagesAfterAll language pages (Node.uncommentedAll nodes) = pagesAfterAll language pages nodes
  | [], _ => rfl
  | .element child :: rest, pages => by
    rw [Node.uncommentedAll, pagesAfterAll, pagesAfterAll, pagesAfter_uncommented child,
      pagesAfterAll_uncommentedAll rest]
  | .text content :: rest, pages => by
    have hrest := pagesAfterAll_uncommentedAll rest pages
    rw [Node.uncommentedAll]
    rcases Node.placeText_cases content (Node.startsWithComment rest) (Node.uncommentedAll rest) with
      ⟨hplaced, -⟩ | ⟨-, next, others, hnext, hplaced⟩
    · rw [hplaced, pagesAfterAll, pagesAfterAll, hrest]
    · rw [hnext] at hrest
      rw [hplaced, pagesAfterAll, pagesAfterAll, ← hrest, pagesAfterAll]
  | .comment _ :: rest, pages => by
    rw [Node.uncommentedAll, pagesAfterAll, pagesAfterAll_uncommentedAll rest]

end

mutual

theorem writable_uncommented : ∀ (root : Element) (pages : Pages),
    Writable language pages root.uncommented ↔ Writable language pages root
  | ⟨_, _, _, children⟩, _ => by
    rw [Element.uncommented, Writable, Writable]
    simp only [writableAll_uncommentedAll children]

theorem writableAll_uncommentedAll : ∀ (nodes : List Node) (pages : Pages),
    WritableAll language pages (Node.uncommentedAll nodes) ↔ WritableAll language pages nodes
  | [], _ => Iff.rfl
  | .element child :: rest, pages => by
    rw [Node.uncommentedAll, writableAll_element_iff, writableAll_element_iff,
      writable_uncommented child, pagesAfter_uncommented, writableAll_uncommentedAll rest]
  | .text content :: rest, pages => by
    have hrest := writableAll_uncommentedAll rest pages
    rw [Node.uncommentedAll, writableAll_text_iff, ← hrest]
    rcases Node.placeText_cases content (Node.startsWithComment rest) (Node.uncommentedAll rest) with
      ⟨hplaced, -⟩ | ⟨-, next, others, hnext, hplaced⟩
    · rw [hplaced, writableAll_text_iff]
    · rw [hplaced, hnext, writableAll_text_iff, writableAll_text_iff, String.toList_append,
        List.mem_append, not_or, and_assoc]
  | .comment _ :: rest, pages => by
    rw [Node.uncommentedAll, writableAll_comment_iff, writableAll_uncommentedAll rest]

end

end Writable

theorem encodable_uncommented_iff {options : EncodeOptions} {document : Document} :
    document.uncommented.Encodable options ↔ document.Encodable options := by
  constructor
  · rintro ⟨hversion, hheader, hlevels, hwritable⟩
    exact ⟨hversion, hheader, levels_uncommented document.root ▸ hlevels,
      (writable_uncommented document.root _).mp hwritable⟩
  · rintro ⟨hversion, hheader, hlevels, hwritable⟩
    exact ⟨hversion, hheader, (levels_uncommented document.root).symm ▸ hlevels,
      (writable_uncommented document.root _).mpr hwritable⟩

/-! ## What is read -/

section Reading
variable {language : Language} {whitespace : Whitespace}

theorem arrange_preserve (pieces : List Node) :
    Decoding.arrange .preserve pieces = Node.coalesce pieces := by
  have hnonempty := (Node.joined_coalesce pieces).nonempty
  rw [Decoding.arrange]
  refine (List.filterMap_congr fun node hmem => ?_).trans List.filterMap_some
  cases node with
  | element child => rfl
  | comment content => rfl
  | text content =>
    have hne : content ≠ "" := fun hempty => hnonempty (hempty ▸ hmem)
    change (Whitespace.preserve.apply content).map Node.text = some (.text content)
    rw [Whitespace.preserve_apply_iff.mpr ⟨hne, rfl⟩]
    rfl

variable (language whitespace) in
/-- The children that are read where nodes were written, and the code page behind them. -/
def readNodes (page : UInt8) (nodes : List Node) : List Node × UInt8 :=
  let pieces := readBackAll language .preserve page (Node.strippedAll whitespace nodes)
  (Node.coalesce pieces.1, pieces.2)

theorem readBack_stripped_eq (page : UInt8) (name : String) (uri : Option String)
    (attributes : List Attribute) (children : List Node) :
    readBack language .preserve page (Element.stripped whitespace ⟨name, uri, attributes, children⟩) =
      let code? := language.tagCode? uri name page
      let inside := readNodes language whitespace (pageAfter page code?) children
      (⟨name, code?.bind fun code => language.uri? code.page, attributes, inside.1⟩, inside.2) := by
  rw [Element.stripped, readBack, arrange_preserve]
  rfl

theorem readNodes_element (page : UInt8) (child : Element) (rest : List Node) :
    readNodes language whitespace page (.element child :: rest) =
      let first := readBack language .preserve page (child.stripped whitespace)
      let others := readNodes language whitespace first.2 rest
      (.element first.1 :: others.1, others.2) := by
  rw [readNodes, Node.strippedAll, readBackAll, Node.coalesce]
  · rfl
  · simp

theorem readNodes_text (page : UInt8) (content : String) (rest : List Node) :
    readNodes language whitespace page (.text content :: rest) =
      let others := readNodes language whitespace page rest
      (Node.consText (whitespace.kept content) others.1, others.2) := by
  rw [readNodes, Node.strippedAll_text, readBackAll_texts, Node.coalesce_texts, Whitespace.join_apply]
  rfl

theorem readNodes_comment (page : UInt8) (content : String) (rest : List Node) :
    readNodes language whitespace page (.comment content :: rest) =
      readNodes language whitespace page rest := by
  rw [readNodes, Node.strippedAll]
  rfl

mutual

/-- Without its comments an element is read as before if there is nothing blank at its seams. -/
theorem readBack_uncommented : ∀ (root : Element) (page : UInt8),
    (whitespace = .strip → root.Seamless) →
      readBack language .preserve page (root.uncommented.stripped whitespace) =
        readBack language .preserve page (root.stripped whitespace)
  | ⟨_, _, _, children⟩, _, h => by
    have hchildren : whitespace = .strip → Node.SeamlessAll children := h
    rw [Element.uncommented, readBack_stripped_eq, readBack_stripped_eq]
    simp only [readNodes_uncommentedAll children _ hchildren]

theorem readNodes_uncommentedAll : ∀ (nodes : List Node) (page : UInt8),
    (whitespace = .strip → Node.SeamlessAll nodes) →
      readNodes language whitespace page (Node.uncommentedAll nodes) =
        readNodes language whitespace page nodes
  | [], _, _ => rfl
  | .element child :: rest, page, h => by
    rw [Node.SeamlessAll] at h
    rw [Node.uncommentedAll, readNodes_element, readNodes_element,
      readBack_uncommented child page fun hstrip => (h hstrip).1]
    simp only [readNodes_uncommentedAll rest _ fun hstrip => (h hstrip).2]
  | .text content :: rest, page, h => by
    rw [Node.SeamlessAll] at h
    have hrest := readNodes_uncommentedAll rest page fun hstrip => (h hstrip).1
    rw [Node.uncommentedAll, readNodes_text, ← hrest]
    rcases Node.placeText_cases content (Node.startsWithComment rest) (Node.uncommentedAll rest) with
      ⟨hplaced, -⟩ | ⟨hcomment, next, others, hnext, hplaced⟩
    · rw [hplaced, readNodes_text]
    -- The joined text is read as its parts are, one behind the other, unless it is trimmed
    -- differently.
    · have hseam : whitespace.kept (content ++ next) =
          whitespace.kept content ++ whitespace.kept next := by
        cases whitespace with
        | preserve => rfl
        | strip => exact (h rfl).2 hcomment next others hnext
      rw [hplaced, hnext]
      simp only [readNodes_text, hseam, Node.consText_append]
  | .comment _ :: rest, page, h => by
    rw [Node.SeamlessAll] at h
    rw [Node.uncommentedAll, readNodes_comment, readNodes_uncommentedAll rest page h]

end

/-! ## The length of what is read -/

theorem textLengthAll_consText (data : String) (nodes : List Node) :
    Node.textLengthAll (Node.consText data nodes) = data.length + Node.textLengthAll nodes := by
  by_cases hdata : data = ""
  · subst hdata
    exact (Nat.zero_add _).symm
  · unfold Node.consText
    rw [String.isEmpty_eq_false_iff.mpr hdata, if_neg (by simp)]
    split
    · rw [Node.textLengthAll_text, Node.textLengthAll_text, String.length_append, Nat.add_assoc]
    · rw [Node.textLengthAll_text]

mutual

/-- Reading joins texts and takes nothing away from them. -/
theorem textLength_readBack : ∀ (root : Element) (page : UInt8),
    (readBack language .preserve page (root.stripped whitespace)).1.textLength =
      (root.stripped whitespace).textLength
  | ⟨_, _, _, children⟩, _ => by
    rw [readBack_stripped_eq, Element.stripped, Element.textLength_mk, Element.textLength_mk]
    exact textLengthAll_readNodes children _

theorem textLengthAll_readNodes : ∀ (nodes : List Node) (page : UInt8),
    Node.textLengthAll (readNodes language whitespace page nodes).1 =
      Node.textLengthAll (Node.strippedAll whitespace nodes)
  | [], _ => rfl
  | .element child :: rest, page => by
    rw [readNodes_element, Node.strippedAll]
    simp only [Node.textLengthAll_element, textLength_readBack child, textLengthAll_readNodes rest]
  | .text content :: rest, page => by
    rw [readNodes_text, Node.textLengthAll_stripped_text]
    simp only [textLengthAll_consText, textLengthAll_readNodes rest]
  | .comment _ :: rest, page => by
    rw [readNodes_comment, Node.strippedAll, textLengthAll_readNodes rest page]

end

/-- An element is read as before without its comments exactly if white space was not taken away
from its seams. -/
theorem readBack_uncommented_iff {root : Element} {page : UInt8} :
    (readBack language .preserve page (root.stripped whitespace)).1 =
        (readBack language .preserve page (root.uncommented.stripped whitespace)).1 ↔
      (whitespace = .strip → root.Seamless) := by
  constructor
  -- A blank character that is left only in the joined text makes the whole longer, wherever it is.
  · rintro heq rfl
    have hlength := congrArg Element.textLength heq
    rw [textLength_readBack, textLength_readBack] at hlength
    exact (seamless_of_textLength root).2 hlength.ge
  · intro h
    rw [readBack_uncommented root page h]

end Reading

end Encoding

namespace Document

open Encoding

theorem normalised_uncommented_iff {options : EncodeOptions} {document : Document} :
    document.normalised options = document.uncommented.normalised options ↔
      (options.whitespace = .strip → document.root.Seamless) := by
  rw [normalised, normalised, Document.mk.injEq]
  exact readBack_uncommented_iff

/-- Comments are never the reason why a document is written or not, and the document that is read
is the same without them if white space is preserved. Otherwise it is the same exactly if there was
no blank character at the seams. -/
theorem decodeDocument_uncommented {options : EncodeOptions} {document : Document}
    (hlanguage : options.language = ActiveSync.language) (hafford : document.Affordable options) :
    ((∃ stream, encodeDocument options document.uncommented = .ok stream) →
      ∃ stream, encodeDocument options document = .ok stream) ∧
    (document.uncommented.Affordable options →
      (∃ stream, encodeDocument options document = .ok stream) →
        ∃ stream, encodeDocument options document.uncommented = .ok stream) ∧
    (∀ stream merged, encodeDocument options document = .ok stream →
      encodeDocument options document.uncommented = .ok merged →
      ∀ reading : DecodeOptions, reading.language = options.language →
        reading.opaqueEncoding = options.opaqueEncoding → reading.whitespace = .preserve →
        (decodeDocument reading stream =
          if document.root.levels ≤ reading.maxDepth then .ok (document.normalised options)
          else .error (.tooDeep reading.maxDepth)) ∧
        decodeDocument reading merged =
          if document.root.levels ≤ reading.maxDepth then
            .ok (document.uncommented.normalised options)
          else .error (.tooDeep reading.maxDepth)) ∧
    (document.normalised options = document.uncommented.normalised options ↔
      (options.whitespace = .strip → document.root.Seamless)) := by
  have regular : options.language.Regular := hlanguage ▸ ActiveSync.language_regular
  refine ⟨?_, fun hafford' => ?_, ?_, normalised_uncommented_iff⟩
  · rintro ⟨merged, hmerged⟩
    exact (exists_encodeDocument_iff hafford).mpr
      (encodable_uncommented_iff.mp (encodable_of_encodeDocument hmerged))
  · rintro ⟨stream, hstream⟩
    exact (exists_encodeDocument_iff hafford').mpr
      (encodable_uncommented_iff.mpr (encodable_of_encodeDocument hstream))
  · intro stream merged hstream hmerged reading hlanguage hencoding hwhitespace
    have hread := decodeDocument_of_written regular hlanguage hencoding hstream
    have hreadMerged := decodeDocument_of_written regular hlanguage hencoding hmerged
    rw [hwhitespace] at hread hreadMerged
    rw [uncommented, levels_uncommented] at hreadMerged
    exact ⟨hread, hreadMerged⟩

/-- A document whose comments stand between parts of a text and of data. -/
def commented : Document :=
  ⟨⟨"Sync", some "AirSync:", [], [
    .text "a", .comment "c", .text "b ", .comment "d", .comment "e",
    .element ⟨"ConversationId", some "Email2:", [], [.text "AA", .comment "", .text "EC "]⟩]⟩⟩

/-- The stream with two strings for each text. -/
def commentedStream : Bytes := [
  0x03, 0x01, 0x6A, 0x00, 0x45, 0x03, 0x61, 0x00, 0x03, 0x62, 0x00, 0x00, 0x16, 0x49, 0x03, 0x41,
  0x41, 0x00, 0x03, 0x45, 0x43, 0x00, 0x01, 0x01]

/-- The stream with one string, and with opaque data. -/
def uncommentedStream : Bytes := [
  0x03, 0x01, 0x6A, 0x00, 0x45, 0x03, 0x61, 0x62, 0x00, 0x00, 0x16, 0x49, 0xC3, 0x03, 0x00, 0x01,
  0x02, 0x01, 0x01]

theorem decodeDocument_uncommented_commented :
    encodeDocument { whitespace := .strip } commented = .ok commentedStream ∧
      encodeDocument { whitespace := .strip } commented.uncommented = .ok uncommentedStream ∧
        decodeDocument {} commentedStream = decodeDocument {} uncommentedStream := by
  have hstream : encodeDocument { whitespace := .strip } commented = .ok commentedStream := by
    decide +kernel
  have hmerged : encodeDocument { whitespace := .strip } commented.uncommented =
      .ok uncommentedStream := by
    decide +kernel
  have hafford : commented.Affordable { whitespace := .strip } := by decide +kernel
  have hseamless : commented.root.Seamless := by
    have hdata : Blank.trim "AAEC " = Blank.trim "AA" ++ Blank.trim "EC " := by decide
    have htext : Blank.trim "ab " = Blank.trim "a" ++ Blank.trim "b " := by decide
    simp [commented, Element.Seamless, Node.SeamlessAll, Node.startsWithComment,
      Node.uncommentedAll, Node.placeText, Node.prependText, hdata, htext]
  obtain ⟨-, -, hread, hsame⟩ :=
    @decodeDocument_uncommented { whitespace := .strip } commented rfl hafford
  obtain ⟨hfirst, hsecond⟩ := hread _ _ hstream hmerged {} rfl rfl rfl
  refine ⟨hstream, hmerged, ?_⟩
  rw [hfirst, hsecond, hsame.mpr fun _ => hseamless]

/-- A document with blanks around a comment. -/
def spaced : Document :=
  ⟨⟨"Sync", some "AirSync:", [], [.text "a ", .comment "c", .text " b"]⟩⟩

def spacedStream : Bytes := [
  0x03, 0x01, 0x6A, 0x00, 0x45, 0x03, 0x61, 0x00, 0x03, 0x62, 0x00, 0x01]

def unspacedStream : Bytes := [
  0x03, 0x01, 0x6A, 0x00, 0x45, 0x03, 0x61, 0x20, 0x20, 0x62, 0x00, 0x01]

/-- The blanks are taken away where the comment is, and they are kept without it. -/
theorem decodeDocument_spaced :
    spaced.Affordable { whitespace := .strip } ∧
      encodeDocument { whitespace := .strip } spaced = .ok spacedStream ∧
      encodeDocument { whitespace := .strip } spaced.uncommented = .ok unspacedStream ∧
      decodeDocument {} spacedStream = .ok ⟨⟨"Sync", some "AirSync:", [], [.text "ab"]⟩⟩ ∧
      decodeDocument {} unspacedStream = .ok ⟨⟨"Sync", some "AirSync:", [], [.text "a  b"]⟩⟩ ∧
      decodeDocument {} spacedStream ≠ decodeDocument {} unspacedStream := by
  decide +kernel

end Document

end BinaryXml
