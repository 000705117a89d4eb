import BinaryXml.Proofs.Conversion
import BinaryXml.Proofs.Stream.Depth
import BinaryXml.Proofs.Stream.Lockstep
import BinaryXml.Proofs.Xml.Depth
import BinaryXml.Proofs.Xml.Transcoding

/-! # One limit for all walks

* `nesting_limit`: texts, documents and streams are refused for their depth exactly where it is more
  than is allowed, and a text that was accepted stays within the limit on its way to a stream and
  back.
* `nesting_limit_loose`: the tokens of a language have to be told apart from those that all languages
  share.
-/

namespace BinaryXml

set_option autoImplicit false

section Limits
variable {options : EncodeOptions} {reading : DecodeOptions} {text stream : Bytes}
  {document : Document}

/-- The options for reading what was written with others. -/
def EncodeOptions.reader (options : EncodeOptions) : DecodeOptions where
  language := options.language
  opaqueEncoding := options.opaqueEncoding
  maxDepth := options.maxDepth

theorem exists_decodeDocument_of_encode (regular : options.language.Regular)
    (h : encode options text = .ok stream) :
    ∃ document, decodeDocument options.reader stream = .ok document := by
  obtain ⟨source, -, hencoded⟩ := encode_eq_ok h
  have hlevels := Encoding.levels_le_of_encode hencoded
  have hstream : Grammar.Stream options.reader stream _ :=
    Encoding.stream_of_encode regular rfl rfl hlevels hencoded
  exact ⟨_, Decoding.run_of_stream hstream⟩

theorem encode_ne_tooDeep (h : parseDocument options.language options.maxDepth text = .ok document)
    (limit : Nat) : encode options text ≠ .error (.tooDeep limit) := by
  rw [encode_of_parseDocument h]
  exact encodeDocument_ne_tooDeep (levels_le_of_parseDocument h) limit

/-- Whatever the language and the policies of a reader are, a stream is too deep for it only if its
text was. -/
theorem decode_ne_tooDeep (regular : options.language.Regular)
    (hdepth : options.maxDepth ≤ reading.maxDepth) (h : encode options text = .ok stream)
    (limit : Nat) : decodeDocument reading stream ≠ .error (.tooDeep limit) ∧
      decode reading stream ≠ .error (.tooDeep limit) := by
  obtain ⟨document, hread⟩ := exists_decodeDocument_of_encode regular h
  have hne : decodeDocument reading stream ≠ .error (.tooDeep limit) :=
    Decoding.decodeDocument_ne_tooDeep hread hdepth limit
  refine ⟨hne, ?_⟩
  cases hresult : decodeDocument reading stream with
  | ok document =>
    rw [decode_of_decodeDocument hresult]
    intro hwritten
    cases kind_of_writeDocument hwritten
  | error error =>
    rw [decode_of_decodeDocument_error hresult]
    intro hdeep
    exact hne (by rw [hresult, Except.error.inj hdeep])

/-- The limit is exact, and it has no other effect: with another one there is the same result where
the document has no more levels, and else the error that names the limit. What a text is accepted
with is enough for its stream. -/
theorem nesting_limit (limit : Nat) :
    (∀ {language : Language} {maxDepth : Nat},
      parseDocument language maxDepth text = .ok document →
        parseDocument language limit text =
          if document.root.levels ≤ limit then .ok document else .error (.tooDeep limit)) ∧
    (encodeDocument options document = .ok stream →
      encodeDocument { options with maxDepth := limit } document =
        if document.root.levels ≤ limit then .ok stream else .error (.tooDeep limit)) ∧
    (decodeDocument reading stream = .ok document →
      decodeDocument { reading with maxDepth := limit } stream =
        if document.root.levels ≤ limit then .ok document else .error (.tooDeep limit)) ∧
    (∀ {language : Language}, parseDocument language options.maxDepth text = .ok document →
      encodeDocument options document ≠ .error (.tooDeep limit)) ∧
    (parseDocument options.language options.maxDepth text = .ok document →
      encode options text ≠ .error (.tooDeep limit)) ∧
    (options.language.Regular → reading.maxDepth = options.maxDepth →
      encode options text = .ok stream →
        decodeDocument reading stream ≠ .error (.tooDeep limit) ∧
          decode reading stream ≠ .error (.tooDeep limit)) := by
  refine ⟨fun h => parseDocument_of_limit h, fun h => encodeDocument_of_limit h,
    fun h => decodeDocument_of_limit h, fun h => ?_, fun h => encode_ne_tooDeep h limit,
    fun regular hdepth h => decode_ne_tooDeep regular (Nat.le_of_eq hdepth.symm) h limit⟩
  exact encodeDocument_ne_tooDeep (levels_le_of_parseDocument h) limit

end Limits

/-- A text with two levels. -/
def twoLevels : Bytes :=
  Utf8.encode "<Sync xmlns=\"AirSync:\"><Add/>a</Sync>"

def twoLevelsDocument : Document :=
  ⟨⟨"Sync", some "AirSync:", [], [.element ⟨"Add", some "AirSync:", [], []⟩, .text "a"]⟩⟩

def twoLevelsStream : Bytes :=
  [0x03, 0x01, 0x6A, 0x00, 0x45, 0x07, 0x03, 0x61, 0x00, 0x01]

/-- Two levels are enough for the text, and one level is not. -/
theorem nesting_limit_twoLevels :
    parseDocument ActiveSync.language 2 twoLevels = .ok twoLevelsDocument ∧
      parseDocument ActiveSync.language 1 twoLevels = .error (.tooDeep 1) ∧
      encodeDocument { maxDepth := 2 } twoLevelsDocument = .ok twoLevelsStream ∧
      encodeDocument { maxDepth := 1 } twoLevelsDocument = .error (.tooDeep 1) ∧
      decodeDocument { maxDepth := 2 } twoLevelsStream = .ok twoLevelsDocument ∧
      decodeDocument { maxDepth := 1 } twoLevelsStream = .error (.tooDeep 1) ∧
      encodeDocument { maxDepth := 2 } twoLevelsDocument ≠ .error (.tooDeep 1) ∧
      encode { maxDepth := 2 } twoLevels ≠ .error (.tooDeep 1) ∧
      decode { maxDepth := 2 } twoLevelsStream ≠ .error (.tooDeep 1) := by
  have hparse : parseDocument ActiveSync.language 2 twoLevels = .ok twoLevelsDocument := by
    decide +kernel
  have hencode : encodeDocument { maxDepth := 2 } twoLevelsDocument = .ok twoLevelsStream := by
    decide +kernel
  have hdecode : decodeDocument { maxDepth := 2 } twoLevelsStream = .ok twoLevelsDocument := by
    decide +kernel
  have hlevels : ¬ twoLevelsDocument.root.levels ≤ 1 := by
    simp [twoLevelsDocument, Element.levels, Node.levelsAll]
  obtain ⟨hparse', hencode', hdecode', hwritten, haccepted, hread⟩ :=
    @nesting_limit { maxDepth := 2 } { maxDepth := 2 } twoLevels twoLevelsStream twoLevelsDocument 1
  have hshallow := hparse' hparse
  rw [if_neg hlevels] at hencode' hdecode' hshallow
  refine ⟨hparse, hshallow, hencode, hencode' hencode, hdecode, hdecode' hdecode, hwritten hparse,
    haccepted hparse, (hread ActiveSync.language_regular rfl ?_).2⟩
  rw [encode_of_parseDocument hparse, hencode]

/-- A language with a token for an attribute value that stands for opaque data everywhere. -/
def looseLanguage : Language where
  name := "loose"
  publicId := none
  fpi := "f"
  dtd := "d"
  doctypeRoot := "q"
  pages := [⟨0, "u", [⟨0x05, "q"⟩, ⟨0x06, "r"⟩, ⟨0x07, "a"⟩, ⟨0x08, "b"⟩, ⟨0x09, "e"⟩, ⟨0x0A, "f"⟩], []⟩]
  attributeStarts := [⟨0, 0x05, "x", ""⟩]
  attributeValues := [⟨0, Code.opaqueData, "v"⟩]

/-- A text with four levels. -/
def looseText : Bytes :=
  Utf8.encode "<q><r><a><b x=\"v\"/></a>t</r><e><f/></e></q>"

/-- The stream of that text. The end of the third element is read as data. -/
def looseStream : Bytes := [
  0x03, 0x01, 0x6A, 0x00, 0x45, 0x46, 0x47, 0x88, 0x05, 0xC3, 0x01, 0x01, 0x03, 0x74, 0x00, 0x01,
  0x49, 0x0A, 0x01, 0x01]

theorem nesting_limit_loose :
    (∃ document, parseDocument looseLanguage 4 looseText = .ok document) ∧
      encode { language := looseLanguage, maxDepth := 4 } looseText = .ok looseStream ∧
      decodeDocument { language := looseLanguage, maxDepth := 4 } looseStream =
        .error (.tooDeep 4) := by
  have hencode : encode { language := looseLanguage, maxDepth := 4 } looseText = .ok looseStream := by
    decide +kernel
  obtain ⟨document, hparse, -⟩ := encode_eq_ok hencode
  refine ⟨⟨document, hparse⟩, hencode, ?_⟩
  decide +kernel

end BinaryXml
