import BinaryXml.Proofs.Stream.Production

/-! # Documents that are written and read

* `Document.normalised` is what is left of a document after both.
* `stream_of_encode`: the stream that is written is derived by the grammar.
* `decodeDocument_of_encodeDocument`: it is read as the normalised document, which has the elements
  and attributes of the one that was written.
-/

namespace BinaryXml

open Grammar

set_option autoImplicit false

/-! ## The header -/

namespace Encoding

variable {options : EncodeOptions} {id : PublicId} {table : TableBuilder} {entries : List String}

/-- The identifier can be read back as long as the table keeps its entries. -/
theorem publicId_spec (regular : options.language.Regular)
    (h : publicId options {} = .ok id table) :
    TableBuilder.Clean table.entries ∧ PublicIdForm id id.bytes ∧
      (table.entries <+: entries → TableBuilder.Clean entries →
        (TableBuilder.bytes ⟨entries⟩).length < TableBuilder.limit →
          ∀ offset, id = .indexed offset →
            ∃ raw, Holds (TableBuilder.bytes ⟨entries⟩) offset raw) := by
  unfold publicId at h
  split at h
  · cases hvalue : options.language.publicId with
    | some value =>
      simp only [hvalue] at h
      cases h
      have hmark : value ≠ PublicId.indexMark := fun heq => regular.publicId (by rw [hvalue, heq]; rfl)
      refine ⟨clean_nil, .number (Number.spells_encode value) hmark, ?_⟩
      rintro - - - offset ⟨⟩
    | none =>
      simp only [hvalue] at h
      obtain ⟨offset, table', hintern, hpure⟩ := bind_eq_ok_iff.mp h
      cases hpure
      obtain ⟨hrefers, more, hmore, hclean⟩ := TableBuilder.intern_eq_ok hintern
      refine ⟨by rw [hmore]; exact hclean,
        .indexed (Number.spells_encode _) (Number.spells_encode offset), ?_⟩
      rintro ⟨others, rfl⟩ hentries hsize _ ⟨⟩
      exact ⟨_, TableBuilder.holds_of_refers (hrefers.append others) hentries hsize⟩
  · cases h
    refine ⟨clean_nil, .number (Number.spells_encode _) (by decide), ?_⟩
    rintro - - - offset ⟨⟩

theorem assemble_eq_ok {tokens : List Token} {stream : Bytes}
    (h : assemble options id table tokens = .ok stream) :
    table.bytes.length < Frame.countLimit ∧
      stream = options.version :: (id.bytes ++ (Number.encode Charset.utf8.mib ++
        Frame.counted table.bytes)) ++ spell tokens := by
  unfold assemble Header.bytes at h
  cases hcounted : Frame.counted? table.bytes with
  | error error =>
    simp only [hcounted] at h
    cases h
  | ok bytes =>
    obtain ⟨hsize, rfl⟩ := Frame.counted?_eq_ok_iff.mp hcounted
    simp only [hcounted] at h
    cases h
    refine ⟨hsize, ?_⟩
    simp

theorem run_eq_ok {document : Document} {stream : Bytes}
    (h : encodeDocument options document = .ok stream) :
    ¬ newestVersion < options.version ∧ ∃ id table tokens state,
      publicId options {} = .ok id table ∧
        element (Context.of options table (document.root.stripped options.whitespace)) 1
          (document.root.stripped options.whitespace) { table } = .ok tokens state ∧
        assemble options id state.table tokens = .ok stream := by
  unfold encodeDocument run at h
  split at h
  · cases h
  · rename_i hversion
    refine ⟨hversion, ?_⟩
    split at h
    · cases h
    · rename_i id table hid
      dsimp only at h
      split at h
      · cases h
      · rename_i tokens state helement
        exact ⟨id, table, tokens, state, hid, helement, h⟩

theorem encodeDocument_of_element {document : Document} {tokens : List Token} {state : State}
    (hversion : ¬ newestVersion < options.version) (hid : publicId options {} = .ok id table)
    (helement : element (Context.of options table (document.root.stripped options.whitespace)) 1
      (document.root.stripped options.whitespace) { table } = .ok tokens state) :
    encodeDocument options document = assemble options id state.table tokens := by
  unfold encodeDocument run
  rw [if_neg hversion, hid]
  dsimp only
  rw [helement]

theorem encodeDocument_of_element_error {document : Document} {error : Error} {state : State}
    (hversion : ¬ newestVersion < options.version) (hid : publicId options {} = .ok id table)
    (helement : element (Context.of options table (document.root.stripped options.whitespace)) 1
      (document.root.stripped options.whitespace) { table } = .error error state) :
    encodeDocument options document = .error error := by
  unfold encodeDocument run
  rw [if_neg hversion, hid]
  dsimp only
  rw [helement]

theorem levels_le_of_encode {document : Document} {stream : Bytes}
    (h : encodeDocument options document = .ok stream) :
    (document.root.stripped options.whitespace).levels ≤ options.maxDepth := by
  obtain ⟨-, id, table, tokens, state, -, helement, -⟩ := run_eq_ok h
  have hlevels := levels_le_of_element 1 _ helement
  exact Nat.le_of_succ_le_succ hlevels

/-- A reader with the string table of a run belongs to what the run wrote. -/
theorem fits_of_extends {root : Element} {state : State} {target : Decoding.Context}
    (clean : TableBuilder.Clean table.entries)
    (grown : Extends (Context.of options table root) { table } state)
    (size : state.table.bytes.length < TableBuilder.limit)
    (hlanguage : target.language = options.language) (hcharset : target.charset = .utf8)
    (hencoding : target.opaqueEncoding = options.opaqueEncoding)
    (htable : target.table = ⟨state.table.bytes⟩) :
    Fits (Context.of options table root) target state.table.entries := by
  refine ⟨hlanguage, hcharset, hencoding, congrArg StringTable.data htable, grown.clean clean, size,
    fun hspelled => ?_⟩
  obtain ⟨more, hmore, -, hquiet⟩ := grown
  obtain ⟨hunused, hempty⟩ : options.useStringTable = false ∧ table.entries = [] := by
    simpa [Context.of] using hspelled
  have hshared : (Context.of options table root).sharedTexts = [] := by
    simp [Context.of, hunused]
  rw [hmore, hquiet hspelled hshared, hempty]
  rfl

/-- The stream that is written is derived by the grammar, whatever becomes of white space. -/
theorem stream_of_encode {reading : DecodeOptions} {document : Document} {stream : Bytes}
    (regular : options.language.Regular) (hlanguage : reading.language = options.language)
    (hencoding : reading.opaqueEncoding = options.opaqueEncoding)
    (hlevels : (document.root.stripped options.whitespace).levels ≤ reading.maxDepth)
    (h : encodeDocument options document = .ok stream) :
    Stream reading stream ⟨(readBack options.language reading.whitespace 0
      (document.root.stripped options.whitespace)).1⟩ := by
  obtain ⟨hversion, id, table, tokens, state, hid, helement, hassemble⟩ := run_eq_ok h
  obtain ⟨hsize, rfl⟩ := assemble_eq_ok hassemble
  obtain ⟨hclean, hform, hnamed⟩ := publicId_spec regular hid
  obtain ⟨hextends, hspec⟩ := element_spec regular 1 _ helement
  let header : Header := ⟨options.version, id, .utf8, ⟨state.table.bytes⟩⟩
  have fits : Fits (Context.of options table (document.root.stripped options.whitespace))
      (Decoding.Context.of reading header) state.table.entries :=
    fits_of_extends hclean hextends hsize hlanguage rfl hencoding rfl
  have hdepth : 1 + (document.root.stripped options.whitespace).levels ≤ reading.maxDepth + 1 := by
    omega
  obtain ⟨-, hplaced⟩ := hspec fits (List.prefix_refl _) hdepth
  have hheader : HeaderForm header (header.version :: (id.bytes ++
      (Number.encode Charset.utf8.mib ++ Frame.counted state.table.bytes))) :=
    .mk (UInt8.not_lt.mp hversion) hform (.registered (Number.spells_encode _))
      (counted_of_lt hsize) (hnamed (hextends.prefix_of (List.prefix_refl _)) fits.clean hsize)
  exact .mk hheader hplaced.body

end Encoding

/-! ## Names, attributes and nesting -/

mutual

/-- An element without its texts, comments and namespaces. -/
def Element.skeleton : Element → Element
  | ⟨name, _, attributes, children⟩ => ⟨name, none, attributes, Node.skeletons children⟩

/-- The skeletons of the elements among some nodes. -/
def Node.skeletons : List Node → List Node
  | [] => []
  | .element child :: rest => .element child.skeleton :: Node.skeletons rest
  | .text _ :: rest => Node.skeletons rest
  | .comment _ :: rest => Node.skeletons rest

end

namespace Node

theorem skeletons_consText (data : String) (nodes : List Node) :
    skeletons (consText data nodes) = skeletons nodes := by
  unfold consText
  split
  · rfl
  · split <;> rfl

theorem skeletons_coalesce (nodes : List Node) : skeletons (coalesce nodes) = skeletons nodes := by
  induction nodes with
  | nil => rfl
  | cons node rest ih =>
    cases node with
    | element child => simp only [coalesce, skeletons, ih]
    | text data => simp only [coalesce, skeletons, skeletons_consText, ih]
    | comment content => simp only [coalesce, skeletons, ih]

theorem skeletons_arrange (whitespace : Whitespace) (nodes : List Node) :
    skeletons (Decoding.arrange whitespace nodes) = skeletons nodes := by
  rw [← skeletons_coalesce nodes, Decoding.arrange]
  induction coalesce nodes with
  | nil => rfl
  | cons node rest ih =>
    rw [List.filterMap_cons]
    cases node with
    | element child => simp only [skeletons, ih]
    | comment content => simp only [skeletons, ih]
    | text content => cases hkept : whitespace.apply content <;> simp [hkept, skeletons, ih]

end Node

mutual

theorem skeleton_stripped (whitespace : Whitespace) :
    ∀ root : Element, (root.stripped whitespace).skeleton = root.skeleton
  | ⟨_, _, _, children⟩ => by
    simp only [Element.stripped, Element.skeleton, skeletons_strippedAll whitespace children]

theorem skeletons_strippedAll (whitespace : Whitespace) :
    ∀ nodes : List Node,
      Node.skeletons (Node.strippedAll whitespace nodes) = Node.skeletons nodes
  | [] => rfl
  | .element child :: rest => by
    simp only [Node.strippedAll, Node.skeletons, skeleton_stripped whitespace child,
      skeletons_strippedAll whitespace rest]
  | .text content :: rest => by
    rw [Node.strippedAll]
    split <;> simp only [Node.skeletons, skeletons_strippedAll whitespace rest]
  | .comment content :: rest => by
    simp only [Node.strippedAll, Node.skeletons, skeletons_strippedAll whitespace rest]

end

namespace Encoding

mutual

theorem skeleton_readBack (language : Language) (whitespace : Whitespace) (page : UInt8) :
    ∀ root : Element, (readBack language whitespace page root).1.skeleton = root.skeleton
  | ⟨_, _, _, children⟩ => by
    simp only [readBack, Element.skeleton, Node.skeletons_arrange,
      skeletons_readBackAll language whitespace _ children]

theorem skeletons_readBackAll (language : Language) (whitespace : Whitespace) (page : UInt8) :
    ∀ nodes : List Node,
      Node.skeletons (readBackAll language whitespace page nodes).1 = Node.skeletons nodes
  | [] => rfl
  | .element child :: rest => by
    simp only [readBackAll, Node.skeletons, skeleton_readBack language whitespace page child,
      skeletons_readBackAll language whitespace _ rest]
  | .text content :: rest => by
    simp only [readBackAll, Node.skeletons, skeletons_readBackAll language whitespace page rest]
  | .comment content :: rest => by
    simp only [readBackAll, Node.skeletons, skeletons_readBackAll language whitespace page rest]

end

end Encoding

/-! ## Round trips -/

namespace Document

/-- What is left of a document that is written and then read with its white space. -/
def normalised (options : EncodeOptions) (document : Document) : Document :=
  ⟨(Encoding.readBack options.language .preserve 0
    (document.root.stripped options.whitespace)).1⟩

theorem skeleton_normalised (options : EncodeOptions) (document : Document) :
    (document.normalised options).root.skeleton = document.root.skeleton := by
  rw [normalised, Encoding.skeleton_readBack, skeleton_stripped]

/-- A stream that was written is read as the normalised document, which has the elements and the
attributes of the document. -/
theorem decodeDocument_of_encodeDocument {options : EncodeOptions} {reading : DecodeOptions}
    {document : Document} {stream : Bytes} (regular : options.language.Regular)
    (hlanguage : reading.language = options.language)
    (hencoding : reading.opaqueEncoding = options.opaqueEncoding)
    (hwhitespace : reading.whitespace = .preserve) (hdepth : options.maxDepth ≤ reading.maxDepth)
    (h : encodeDocument options document = .ok stream) :
    decodeDocument reading stream = .ok (document.normalised options) ∧
      (document.normalised options).root.skeleton = document.root.skeleton := by
  have hlevels := Nat.le_trans (Encoding.levels_le_of_encode h) hdepth
  have hstream := Encoding.stream_of_encode regular hlanguage hencoding hlevels h
  rw [hwhitespace] at hstream
  exact ⟨Decoding.run_of_stream hstream, skeleton_normalised options document⟩

deriving instance DecidableEq for Except

/-- A document with a literal element and attribute, texts around a comment, opaque data and a
change of code page. -/
def sample : Document :=
  ⟨⟨"Sync", some "airsync", [⟨"note", "a"⟩], [
    .text "a", .comment "c", .text "b",
    .element ⟨"ConversationId", some "Email2:", [], [.text "AAEC"]⟩,
    .element ⟨"Other", none, [], [.text ""]⟩]⟩⟩

/-- The bytes of the sample. -/
def sampleStream : Bytes := [
  0x03, 0x00, 0x00, 0x6A, 0x2C, 0x2D, 0x2F, 0x2F, 0x4D, 0x49, 0x43, 0x52, 0x4F, 0x53, 0x4F, 0x46,
  0x54, 0x2F, 0x2F, 0x44, 0x54, 0x44, 0x20, 0x41, 0x63, 0x74, 0x69, 0x76, 0x65, 0x53, 0x79, 0x6E,
  0x63, 0x2F, 0x2F, 0x45, 0x4E, 0x00, 0x6E, 0x6F, 0x74, 0x65, 0x00, 0x4F, 0x74, 0x68, 0x65, 0x72,
  0x00, 0xC5, 0x04, 0x21, 0x03, 0x61, 0x00, 0x01, 0x03, 0x61, 0x00, 0x03, 0x62, 0x00, 0x00, 0x16,
  0x49, 0xC3, 0x03, 0x00, 0x01, 0x02, 0x01, 0x04, 0x26, 0x01]

theorem decodeDocument_sampleStream :
    encodeDocument { includePublicId := true } sample = .ok sampleStream ∧
      decodeDocument {} sampleStream = .ok (sample.normalised { includePublicId := true }) ∧
      (sample.normalised { includePublicId := true }).root.skeleton = sample.root.skeleton := by
  have hencode : encodeDocument { includePublicId := true } sample = .ok sampleStream := by
    decide +kernel
  exact ⟨hencode, decodeDocument_of_encodeDocument ActiveSync.language_regular rfl rfl rfl
    (Nat.le_refl _) hencode⟩

end Document

end BinaryXml
