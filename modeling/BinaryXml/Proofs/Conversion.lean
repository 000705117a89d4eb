import BinaryXml.Conversion
import BinaryXml.Proofs.Document.Equality
import BinaryXml.Proofs.Stream.RoundTrip
import BinaryXml.Proofs.Stream.Settled
import BinaryXml.Proofs.Xml.Documents

/-! # Streams that become XML

* `decode_parseDocument_iff`: the XML of a stream has the document of the stream, up to namespaces,
  if and only if the names in that document are readable.
-/

namespace BinaryXml

set_option autoImplicit false

/-! ## Decoded documents -/

section Tidy
variable {language : Language} {whitespace : Whitespace}

mutual

/-- Documents that were read from a stream are tidy, if the tags of the language have proper
names. -/
theorem tidy_of_settled (htags : ∀ space name, language.HasTag space name →
    name ≠ "" ∧ (Utf8.encode name).getLast? ≠ some 0x2F) :
    ∀ root : Element, Settled language whitespace root → root.Tidy
  | ⟨_, _, _, children⟩, h => by
    rw [Settled] at h
    exact tidy_iff.mpr ⟨fun space hspace => htags space _ (h.1 space hspace),
      tidyAll_of_settled htags children h.2⟩

theorem tidyAll_of_settled (htags : ∀ space name, language.HasTag space name →
    name ≠ "" ∧ (Utf8.encode name).getLast? ≠ some 0x2F) :
    ∀ nodes : List Node, SettledAll language whitespace nodes → Node.TidyAll nodes
  | [], _ => by
    rw [Node.TidyAll]
    trivial
  | .element child :: rest, h => by
    rw [settledAll_element_iff] at h
    exact tidyAll_element_iff.mpr ⟨tidy_of_settled htags child h.1, tidyAll_of_settled htags rest h.2⟩
  | .text content :: rest, h => by
    rw [settledAll_text_iff] at h
    exact tidyAll_text_iff.mpr ⟨(Whitespace.apply_of_apply h.1).1, h.2.1,
      tidyAll_of_settled htags rest h.2.2⟩
  | .comment content :: rest, h => (not_settledAll_comment h).elim

end

end Tidy

theorem ActiveSync.tag_names (space name : String) (h : ActiveSync.language.HasTag space name) :
    name ≠ "" ∧ (Utf8.encode name).getLast? ≠ some 0x2F := by
  -- The bytes that the name is kept in are at hand without reading its characters.
  have hall : ∀ codePage ∈ ActiveSync.language.pages, ∀ tag ∈ codePage.tags,
      tag.name ≠ "" ∧ tag.name.toByteArray.data.toList.getLast? ≠ some 0x2F := by
    decide +kernel
  obtain ⟨codePage, hpage, -, tag, htag, rfl⟩ := h
  rw [Utf8.encode_eq_toByteArray]
  exact hall codePage hpage tag htag

theorem decode_eq_ok {options : DecodeOptions} {stream text : Bytes}
    (h : decode options stream = .ok text) : ∃ document,
      decodeDocument options stream = .ok document ∧ writeDocument options document = .ok text := by
  unfold decode Decoding.runText at h
  dsimp only at h
  cases hresult : (Decoding.run options stream).result with
  | error error =>
    rw [hresult] at h
    cases h
  | ok document =>
    rw [hresult] at h
    exact ⟨document, hresult, h⟩

theorem encode_eq_ok {options : EncodeOptions} {text stream : Bytes}
    (h : encode options text = .ok stream) : ∃ document,
      parseDocument options.language options.maxDepth text = .ok document ∧
        encodeDocument options document = .ok stream := by
  unfold encode Encoding.runText at h
  cases hparsed : parseDocument options.language options.maxDepth text with
  | error error =>
    rw [hparsed] at h
    cases h
  | ok document =>
    rw [hparsed] at h
    exact ⟨document, rfl, h⟩

theorem encode_of_parseDocument {options : EncodeOptions} {text : Bytes} {document : Document}
    (h : parseDocument options.language options.maxDepth text = .ok document) :
    encode options text = encodeDocument options document := by
  unfold encode Encoding.runText
  rw [h]
  rfl

theorem decode_of_decodeDocument {options : DecodeOptions} {stream : Bytes} {document : Document}
    (h : decodeDocument options stream = .ok document) :
    decode options stream = writeDocument options document := by
  unfold decodeDocument at h
  unfold decode Decoding.runText
  dsimp only
  rw [h]
  rfl

theorem decode_of_decodeDocument_error {options : DecodeOptions} {stream : Bytes} {error : Error}
    (h : decodeDocument options stream = .error error) : decode options stream = .error error := by
  unfold decodeDocument at h
  unfold decode Decoding.runText
  dsimp only
  rw [h]
  rfl

section Decode
variable {options : DecodeOptions} {limit : Nat} {stream text : Bytes}

/-- The XML of a stream is what is written of a tidy document with few levels. -/
theorem decode_eq_documentBytes (hlanguage : options.language = ActiveSync.language)
    (hform : options.form = .compact) (hcharset : options.charset = .utf8)
    (hlimit : options.maxDepth ≤ limit) (h : decode options stream = .ok text) :
    ∃ document, decodeDocument options stream = .ok document ∧
      text = Writing.documentBytes ActiveSync.language document.root ∧
        document.root.Tidy ∧ document.root.levels ≤ limit := by
  obtain ⟨document, hdocument, hwritten⟩ := decode_eq_ok h
  obtain ⟨hsettled, hlevels⟩ := settled_of_stream (Decoding.stream_of_run hdocument)
  rw [hlanguage] at hsettled
  have hbytes := writeDocument_eq_ok hform hcharset hwritten
  rw [hlanguage] at hbytes
  exact ⟨document, hdocument, hbytes, tidy_of_settled ActiveSync.tag_names document.root hsettled,
    Nat.le_trans hlevels hlimit⟩

/-- The XML of a stream is read as the document of the stream, up to namespaces, if and only if
the names in that document are readable. -/
theorem decode_parseDocument_iff (hlanguage : options.language = ActiveSync.language)
    (hform : options.form = .compact) (hcharset : options.charset = .utf8)
    (hlimit : options.maxDepth ≤ limit) (h : decode options stream = .ok text) :
    ∃ document, decodeDocument options stream = .ok document ∧
      ((∃ parsed, parseDocument ActiveSync.language limit text = .ok parsed ∧
        parsed.root.unqualified = document.root.unqualified) ↔ document.root.Readable) := by
  obtain ⟨document, hdocument, rfl, htidy, hlevels⟩ :=
    decode_eq_documentBytes hlanguage hform hcharset hlimit h
  exact ⟨document, hdocument, exists_parseDocument_iff htidy hlevels⟩

/-- A stream with one element. The value of its attribute is a quote, and its text is a bracket. -/
def noteStream : Bytes :=
  [0x03, 0x01, 0x6A, 0x00, 0xC4, 0x61, 0x00, 0x04, 0x62, 0x00, 0x03, 0x22, 0x00, 0x01, 0x03, 0x3C,
    0x00, 0x01]

/-- The XML of that stream. -/
def noteText : Bytes :=
  Utf8.encode ("<?xml version=\"1.0\"?><!DOCTYPE ActiveSync PUBLIC " ++
    "\"-//MICROSOFT//DTD ActiveSync//EN\" \"http://www.microsoft.com/\">" ++
    "<a b=\"&quot;\">&lt;</a>")

theorem parseDocument_noteText : decode {} noteStream = .ok noteText ∧
    ∃ document, decodeDocument {} noteStream = .ok document ∧
      ((∃ parsed, parseDocument ActiveSync.language defaultMaxDepth noteText = .ok parsed ∧
        parsed.root.unqualified = document.root.unqualified) ↔ document.root.Readable) := by
  have hdecode : decode {} noteStream = .ok noteText := by
    decide +kernel
  exact ⟨hdecode, decode_parseDocument_iff rfl rfl rfl (Nat.le_refl _) hdecode⟩

/-- A stream with one element, which has a text. The name of the element ends in a slash. -/
def slashStream : Bytes :=
  [0x03, 0x01, 0x6A, 0x00, 0x44, 0x61, 0x2F, 0x00, 0x03, 0x74, 0x00, 0x01]

/-- The XML of that stream. The slash makes an element without content, so that the text stands
behind the outermost element. -/
def slashText : Bytes :=
  Utf8.encode ("<?xml version=\"1.0\"?><!DOCTYPE ActiveSync PUBLIC " ++
    "\"-//MICROSOFT//DTD ActiveSync//EN\" \"http://www.microsoft.com/\"><a/>t</a/>")

theorem parseDocument_slashText : decode {} slashStream = .ok slashText ∧
    decodeDocument {} slashStream = .ok ⟨⟨"a/", none, [], [.text "t"]⟩⟩ ∧
      parseDocument ActiveSync.language defaultMaxDepth slashText =
        .error (.malformedXml .strayText) := by
  decide +kernel

end Decode

end BinaryXml
