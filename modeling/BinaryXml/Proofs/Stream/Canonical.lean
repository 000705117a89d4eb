import BinaryXml.Proofs.Document.Equality
import BinaryXml.Proofs.Stream.Capacity
import BinaryXml.Proofs.Stream.RoundTrip
import BinaryXml.Proofs.Stream.Settled
import BinaryXml.Proofs.Stream.Spelling

/-! # Streams that are brought to the encoder's form

Whoever made a stream, its document can be written again, and the new stream has the same document.

* `Document.Affordable`: the string table and the opaque data of a document stay below 4 GiB.
* `Document.exists_encodeDocument_iff`: which documents are written.
* `encodeDocument_succeeds`: a document that can be spelt and afforded is written.
* `decodeDocument_of_reencoded`: a document that was read is written, and it is read again.
-/

namespace BinaryXml

open Encoding Grammar

set_option autoImplicit false

/-! ## Writing a document -/

namespace Encoding

/-- The strings that the header puts into the table. -/
def initialEntries (options : EncodeOptions) : List String :=
  if options.includePublicId && options.language.publicId.isNone then [options.language.fpi]
  else []

/-- What a document demands behind the header. -/
def documentDemands (options : EncodeOptions) (document : Document) : List Demand :=
  let root := document.root.stripped options.whitespace
  (elementDemands (Context.of options ⟨initialEntries options⟩ root) ⟨0, 0⟩ root).1

/-- Only an identifier that goes into the table has to be written. -/
def HeaderWritable (options : EncodeOptions) : Prop :=
  options.includePublicId = true → options.language.publicId = none →
    '\x00' ∉ options.language.fpi.toList

theorem publicId_eq_ok {options : EncodeOptions} {id : PublicId} {table : TableBuilder}
    (h : publicId options {} = .ok id table) :
    HeaderWritable options ∧ TableBuilder.Clean table.entries ∧
      table.entries = initialEntries options := by
  unfold publicId at h
  unfold HeaderWritable initialEntries
  cases hinclude : options.includePublicId with
  | false =>
    rw [hinclude] at h
    cases h
    exact ⟨nofun, clean_nil, rfl⟩
  | true =>
    rw [hinclude] at h
    cases hvalue : options.language.publicId with
    | some value =>
      rw [hvalue] at h
      cases h
      exact ⟨nofun, clean_nil, rfl⟩
    | none =>
      rw [hvalue] at h
      obtain ⟨offset, table', hintern, hpure⟩ := bind_eq_ok_iff.mp h
      cases hpure
      obtain ⟨hfpi, hclean, hentries⟩ := intern_eq_ok_meet clean_nil hintern
      exact ⟨fun _ _ => hfpi, hclean, hentries⟩

theorem publicId_succeeds {options : EncodeOptions} (hwritable : HeaderWritable options)
    (hroom : (TableBuilder.bytes ⟨initialEntries options⟩).length < TableBuilder.limit) :
    ∃ id, publicId options {} = .ok id ⟨initialEntries options⟩ := by
  unfold publicId initialEntries at *
  cases hinclude : options.includePublicId with
  | false => exact ⟨_, rfl⟩
  | true =>
    cases hvalue : options.language.publicId with
    | some value => exact ⟨_, rfl⟩
    | none =>
      rw [hinclude, hvalue] at hroom
      have hafford : Affords [] [.entry options.language.fpi] :=
        ⟨hroom, fun bytes hmem => by simp at hmem⟩
      obtain ⟨offset, hintern⟩ : ∃ offset, TableBuilder.intern options.language.fpi {} =
        .ok offset ⟨Demand.meet [] (.entry options.language.fpi)⟩ :=
        intern_succeeds (hwritable hinclude hvalue) hafford
      exact ⟨.indexed offset, bind_eq_ok_iff.mpr ⟨offset, _, hintern, rfl⟩⟩

end Encoding

namespace Document

/-- The string table and the opaque data of a document stay below 4 GiB. -/
def Affordable (options : EncodeOptions) (document : Document) : Prop :=
  Affords (initialEntries options) (documentDemands options document)

instance (options : EncodeOptions) (document : Document) : Decidable (document.Affordable options) :=
  inferInstanceAs (Decidable (Affords (initialEntries options) (documentDemands options document)))

/-- What must hold of a document that is written, whatever is left out of it. -/
structure Encodable (options : EncodeOptions) (document : Document) : Prop where
  version : options.version ≤ newestVersion
  header : HeaderWritable options
  levels : document.root.levels ≤ options.maxDepth
  writable : Writable options.language ⟨0, 0⟩ document.root

section Encodable
variable {options : EncodeOptions} {document : Document}

theorem writes_root (table : TableBuilder) :
    Writes (element (Context.of options table (document.root.stripped options.whitespace)) 1
        (document.root.stripped options.whitespace)) { table }
      (elementDemands (Context.of options table (document.root.stripped options.whitespace)) ⟨0, 0⟩
        (document.root.stripped options.whitespace)).1
      (document.root.levels ≤ options.maxDepth ∧ Writable options.language ⟨0, 0⟩ document.root)
      (pagesAfter options.language ⟨0, 0⟩ (document.root.stripped options.whitespace)) := by
  rw [← writable_stripped options.whitespace, ← levels_stripped options.whitespace]
  exact (writes_element 1 _ rfl).congr (and_congr_left' Nat.add_le_add_iff_right)

theorem encodable_of_encodeDocument {stream : Bytes}
    (h : encodeDocument options document = .ok stream) : document.Encodable options := by
  obtain ⟨hversion, id, table, tokens, state, hid, helement, -⟩ := run_eq_ok h
  obtain ⟨hheader, hclean, -⟩ := publicId_eq_ok hid
  obtain ⟨⟨hlevels, hwritable⟩, -⟩ := (writes_root table).sound hclean helement
  exact ⟨UInt8.not_lt.mp hversion, hheader, hlevels, hwritable⟩

/-- Nothing else keeps a document from being written, as long as 32 bits are enough for its table
and its data. -/
theorem exists_encodeDocument_iff (hafford : document.Affordable options) :
    (∃ stream, encodeDocument options document = .ok stream) ↔ document.Encodable options := by
  refine ⟨fun ⟨stream, h⟩ => encodable_of_encodeDocument h, fun h => ?_⟩
  have hroom := Nat.lt_of_le_of_lt (length_foldl_meet_le _ _) hafford.1
  obtain ⟨id, hid⟩ := publicId_succeeds h.header hroom
  have hclean : TableBuilder.Clean (initialEntries options) := (publicId_eq_ok hid).2.1
  have hwrites := @writes_root options document ⟨initialEntries options⟩
  obtain ⟨tokens, state, helement⟩ := hwrites.complete hclean ⟨h.levels, h.writable⟩ hafford
  obtain ⟨-, -, hentries, -⟩ := hwrites.sound hclean helement
  have hsize : state.table.bytes.length < Frame.countLimit := by
    rw [TableBuilder.bytes, hentries]
    exact hafford.1
  obtain ⟨stream, hstream⟩ : ∃ stream, assemble options id state.table tokens = .ok stream := by
    have hcounted := Frame.counted?_eq_ok_iff.mpr ⟨hsize, rfl⟩
    unfold assemble Header.bytes
    dsimp only
    rw [hcounted]
    exact ⟨_, rfl⟩
  refine ⟨stream, ?_⟩
  rw [encodeDocument_of_element (UInt8.not_lt.mpr h.version) hid helement, hstream]

theorem encodeDocument_succeeds (hversion : options.version ≤ newestVersion)
    (hfpi : '\x00' ∉ options.language.fpi.toList)
    (hspell : Spellable (document.root.stripped options.whitespace))
    (hlevels : (document.root.stripped options.whitespace).levels ≤ options.maxDepth)
    (hafford : document.Affordable options) :
    ∃ stream, encodeDocument options document = .ok stream := by
  refine (exists_encodeDocument_iff hafford).mpr ⟨hversion, fun _ _ => hfpi, ?_, ?_⟩
  · rwa [← levels_stripped options.whitespace]
  · exact (writable_stripped options.whitespace _ _).mp (writable_of_spellable _ _ hspell)

/-- A document that was written has no zero characters. -/
theorem spellable_of_encode {stream : Bytes} (clean : CleanLanguage options.language)
    (h : encodeDocument options document = .ok stream) :
    Spellable (document.root.stripped options.whitespace) :=
  spellable_of_writable clean _ _
    ((writable_stripped _ _ _).mpr (encodable_of_encodeDocument h).writable)

end Encodable

/-- A document that was read is written again, whatever stream it came from, and the stream that
is written has the same document. -/
theorem decodeDocument_of_reencoded {reading : DecodeOptions} {options : EncodeOptions}
    {stream : Bytes} {document : Document} (regular : reading.language.Regular)
    (distinct : reading.language.Distinct) (hfpi : '\x00' ∉ reading.language.fpi.toList)
    (hread : decodeDocument reading stream = .ok document) (hspell : Spellable document.root)
    (hliterals : LiteralsUnknown reading.language document.root)
    (hlanguage : options.language = reading.language)
    (hencoding : options.opaqueEncoding = reading.opaqueEncoding)
    (hversion : options.version ≤ newestVersion) (hwhitespace : options.whitespace = .preserve)
    (hdepth : reading.maxDepth ≤ options.maxDepth) (hafford : document.Affordable options) :
    ∃ written, encodeDocument options document = .ok written ∧
      decodeDocument reading written = .ok document := by
  obtain ⟨hsettled, hlevels⟩ := settled_of_stream (Decoding.stream_of_run hread)
  have hstripped : document.root.stripped options.whitespace = document.root := by
    rw [hwhitespace]
    exact stripped_of_settled document.root hsettled
  obtain ⟨written, hwritten⟩ : ∃ written, encodeDocument options document = .ok written := by
    refine encodeDocument_succeeds hversion ?_ ?_ ?_ hafford
    · rw [hlanguage]
      exact hfpi
    · rw [hstripped]
      exact hspell
    · rw [hstripped]
      exact Nat.le_trans hlevels hdepth
  refine ⟨written, hwritten, ?_⟩
  have hstream := stream_of_encode (hlanguage ▸ regular) hlanguage.symm hencoding.symm
    (by rw [hstripped]; exact hlevels) hwritten
  rw [hstripped, hlanguage,
    readBack_of_settled regular distinct document.root 0 hsettled hliterals] at hstream
  exact Decoding.run_of_stream hstream

/-- A stream in Latin-1 with spellings that are never written: pages are switched twice, a value
has a character reference, a count has a leading zero. -/
def variedStream : Bytes := [
  0x01, 0x01, 0x04, 0x0D, 0x6E, 0x6F, 0x74, 0x65, 0x00, 0x62, 0x00, 0x4F, 0x74, 0x68, 0x65, 0x72,
  0x00, 0x00, 0x01, 0x00, 0x00, 0xC5, 0x04, 0x00, 0x03, 0x61, 0x00, 0x02, 0xC1, 0x2C, 0x01, 0x83,
  0x05, 0x03, 0xE9, 0x00, 0x00, 0x16, 0x49, 0xC3, 0x80, 0x03, 0x00, 0x01, 0x02, 0x01, 0x04, 0x07,
  0x01]

/-- What the varied stream denotes. -/
def varied : Document :=
  ⟨⟨"Sync", some "AirSync:", [⟨"note", "a€"⟩], [
    .text "bé",
    .element ⟨"ConversationId", some "Email2:", [], [.text "AAEC"]⟩,
    .element ⟨"Other", none, [], []⟩]⟩⟩

theorem decodeDocument_variedStream :
    decodeDocument { whitespace := .strip } variedStream = .ok varied ∧
      ∃ written, encodeDocument { includePublicId := true } varied = .ok written ∧
        decodeDocument { whitespace := .strip } written = .ok varied := by
  have hread : decodeDocument { whitespace := .strip } variedStream = .ok varied := by
    decide +kernel
  have hdistinct : ActiveSync.language.Distinct := by
    unfold Language.Distinct
    decide +kernel
  have hother : ActiveSync.language.Unknown "Other" := by
    unfold Language.Unknown
    decide +kernel
  have hdemands : documentDemands { includePublicId := true } varied =
      [.entry "note", .data [0x00, 0x01, 0x02], .entry "Other"] := by
    decide +kernel
  refine ⟨hread, decodeDocument_of_reencoded ActiveSync.language_regular hdistinct (by decide)
    hread ?_ ?_ rfl rfl (by decide) rfl (Nat.le_refl _) ⟨?_, ?_⟩⟩
  · simp [varied, Spellable, SpellableAll]
  · simpa [varied, LiteralsUnknown, LiteralsUnknownAll] using hother
  · rw [hdemands]
    decide +kernel
  · rw [hdemands]
    simp [Frame.countLimit]

end Document

end BinaryXml
