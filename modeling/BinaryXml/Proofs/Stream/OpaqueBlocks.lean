import BinaryXml.Proofs.Language.Tags
import BinaryXml.Proofs.Opaque.Encoding
import BinaryXml.Proofs.Stream.Emission

/-! # Opaque data in a stream, and what becomes of it

The content of a tag that is marked as opaque may be split into any number of blocks. Each block is
read as a text of its own, and the texts are put together.

* `Blocks` and `Framed`: such a content, and an element with it.
* `inner_iff_of_writesAt`: the encoder writes data just where the text is that of the data.
* `Document.blocks_reencoded`: all bytes survive in one block just if the blocks are aligned.
-/

namespace BinaryXml

open Encoding (WritesAt behind)

set_option autoImplicit false

namespace Grammar

open Decoding (Context)

/-! ## Blocks -/

/-- Blocks of data one behind the other. -/
inductive Blocks : List Bytes → Bytes → Prop
  | nil : Blocks [] []
  | cons {data frame bytes : Bytes} {blocks : List Bytes} (first : Counted data frame)
      (rest : Blocks blocks bytes) :
      Blocks (data :: blocks) (Code.opaqueData :: (frame ++ bytes))

/-- An element with nothing but blocks inside, and a tag that is marked as opaque. -/
inductive Framed (blocks : List Bytes) (context : Context) : ElementForm
  | mk {depth : Nat} {pages next : Pages} {token : UInt8} {front bytes : Bytes} {head : Element}
      {children : List Node} (start : Head context depth pages token front head next)
      (flag : token &&& Code.hasContent ≠ 0) (registered : Code.firstOfPage ≤ Code.base token)
      (marked : context.language.isOpaque ⟨pages.tags, Code.base token⟩ = true)
      (framed : Blocks blocks bytes)
      (made : Children context.whitespace
        ((blocks.map context.opaqueEncoding.encode).map .text) children) :
      Framed blocks context depth pages (token :: (front ++ (bytes ++ [Code.finish])))
        { head with children } next

section Blocks
variable {context : Context} {blocks : List Bytes}

theorem content_of_blocks {bytes : Bytes} (h : Blocks blocks bytes) (depth : Nat) (pages : Pages) :
    Content context depth pages (bytes ++ [Code.finish])
      ((blocks.map context.opaqueEncoding.encode).map .text) pages := by
  induction h with
  | nil => exact .finish
  | @cons data _ _ _ first _ ih =>
    have operand : Operand context .data _ (context.opaqueEncoding.encode data) := .data first
    rw [List.cons_append, List.append_assoc]
    exact .string operand ih

theorem isElement_of_framed {depth : Nat} {pages last : Pages} {bytes : Bytes} {root : Element}
    (h : Framed blocks context depth pages bytes root last) :
    IsElement context depth pages bytes root last := by
  cases h with
  | mk start flag _ _ framed made =>
    exact .nested start flag (content_of_blocks framed depth _) made

/-- The texts of blocks make up one text, unless all blocks are empty. -/
theorem children_blocks_iff {whitespace : Whitespace} {encoding : OpaqueEncoding}
    {children : List Node} (hblocks : blocks.flatten ≠ []) :
    Children whitespace ((blocks.map encoding.encode).map .text) children ↔
      children = [.text (String.join (blocks.map encoding.encode))] := by
  have harrange := @Decoding.arrange_texts whitespace (blocks.map encoding.encode) [] (by simp)
  rw [List.append_nil, OpaqueEncoding.apply_join _ _ hblocks] at harrange
  rw [Decoding.children_iff, harrange]
  rfl

/-- The element of blocks has a tag that is marked as opaque, and one text. -/
theorem element_of_framed {depth : Nat} {pages last : Pages} {bytes : Bytes} {root : Element}
    (hblocks : blocks.flatten ≠ []) (h : Framed blocks context depth pages bytes root last) :
    ∃ name list token,
      context.language.tagName? pages.tags token = some name ∧
      context.language.isOpaque ⟨pages.tags, token⟩ = true ∧
      root = ⟨name, context.language.uri? pages.tags, list,
        [.text (String.join (blocks.map context.opaqueEncoding.encode))]⟩ := by
  cases h with
  | @mk _ _ _ token _ _ _ _ start _ registered marked _ made =>
    obtain rfl := (children_blocks_iff hblocks).mp made
    cases start with
    | mk _ tag _ =>
      cases tag with
      -- A literal name has no token that could be marked.
      | literal base _ => exact absurd (base ▸ registered) (by decide)
      | registered _ found => exact ⟨_, _, Code.base token, found, marked, rfl⟩

end Blocks

end Grammar

/-! ## Writing -/

namespace Encoding

/-- A text inside a tag that is marked as opaque is written as data if it is the text of some, and
else as a string. -/
theorem inner_of_behind {source : Context} {depth : Nat} {name content : String} {code : TagCode}
    {inner : List Token} {state last : State} (marked : source.language.isOpaque code = true)
    (h : behind source depth name [.text content] (some code) state = .ok inner last) :
    match source.opaqueEncoding.decode content with
    | some data => inner = [.opaqueData data, .finish]
    | none => ∃ token state last, text source content state = .ok token last ∧
        inner = [token, .finish] := by
  rw [behind_eq, if_neg (by simp)] at h
  obtain ⟨data?, asked, hdata, h⟩ := bind_eq_ok_iff.mp h
  rw [dataInside?, opaqueData?_eq, if_pos marked] at hdata
  have hdata? : data? = source.opaqueEncoding.decode content := by
    cases hdata
    rfl
  cases hdecode : source.opaqueEncoding.decode content with
  | some data =>
    rw [hdecode] at hdata?
    subst hdata?
    obtain ⟨_, _, -, h⟩ := bind_eq_ok_iff.mp h
    cases h
    rfl
  | none =>
    rw [hdecode] at hdata?
    subst hdata?
    obtain ⟨tokens, _, hcontent, h⟩ := bind_eq_ok_iff.mp h
    cases h
    obtain ⟨token, _, htext, hcontent⟩ := bind_eq_ok_iff.mp hcontent
    obtain ⟨_, _, hnil, hcontent⟩ := bind_eq_ok_iff.mp hcontent
    cases hnil
    cases hcontent
    exact ⟨token, _, _, htext, rfl⟩

/-- No text is written as data. -/
theorem text_ne_opaqueData {source : Context} {content : String} {data : Bytes}
    {state last : State} :
    text source content state ≠ .ok (.opaqueData data) last := by
  intro h
  unfold text at h
  split at h
  · obtain ⟨_, _, -, h⟩ := bind_eq_ok_iff.mp h
    cases h
  · obtain ⟨_, _, -, h⟩ := bind_eq_ok_iff.mp h
    cases h

/-- The texts of blocks are written as one block with all their bytes if they are aligned, and else
as a string. -/
theorem inner_iff_of_writesAt {options : EncodeOptions} {path : List Nat} {document : Document}
    {inner : List Token} {written : Bytes} {blocks : List Bytes} {page token : UInt8}
    {name : String} {list : List Attribute} (distinct : options.language.Distinct)
    (names : ∀ codePage ∈ options.language.pages, (codePage.tags.map (·.name)).Nodup)
    (hblocks : blocks.flatten ≠ []) (found : options.language.tagName? page token = some name)
    (marked : options.language.isOpaque ⟨page, token⟩ = true)
    (hat : document.root.at? path = some ⟨name, options.language.uri? page, list,
      [.text (String.join (blocks.map options.opaqueEncoding.encode))]⟩)
    (h : WritesAt options path document inner written) :
    inner = [.opaqueData blocks.flatten, .finish] ↔ options.opaqueEncoding.Aligned blocks := by
  obtain ⟨source, depth, current, state, last, hlanguage, hencoding, hbehind⟩ :=
    behind_of_writesAt h hat
  -- No text of data has blanks at its ends, so the encoder sees it whole.
  have hkept : Node.strippedAll options.whitespace
      [.text (String.join (blocks.map options.opaqueEncoding.encode))] =
        [.text (String.join (blocks.map options.opaqueEncoding.encode))] := by
    rw [Node.strippedAll, OpaqueEncoding.apply_join _ _ hblocks]
    rfl
  rw [hkept, Language.tagCode?_of_tagName? distinct names found] at hbehind
  have hinner := inner_of_behind (hlanguage ▸ marked) hbehind
  rw [hencoding, OpaqueEncoding.decode_join] at hinner
  by_cases haligned : options.opaqueEncoding.Aligned blocks
  · rw [if_pos haligned] at hinner
    exact iff_of_true hinner haligned
  · rw [if_neg haligned] at hinner
    obtain ⟨token, _, _, htext, rfl⟩ := hinner
    refine iff_of_false (fun hsame => ?_) haligned
    cases hsame
    exact text_ne_opaqueData htext

end Encoding

open Grammar (StreamAt Framed)

/-- The data of a marked tag is read as one text, however it is split into blocks, and whenever the
document is written again, with the same language and the same text of data, the tag has one block
with all the bytes; but only if every block that more bytes follow has whole characters. Else the
text is not that of any data, and is written as a string. -/
theorem Document.blocks_reencoded {options : DecodeOptions} {path : List Nat} {stream : Bytes}
    {document : Document} {blocks : List Bytes} (distinct : options.language.Distinct)
    (names : ∀ codePage ∈ options.language.pages, (codePage.tags.map (·.name)).Nodup)
    (hblocks : blocks.flatten ≠ []) (h : StreamAt options (Framed blocks) path stream document) :
    decodeDocument options stream = .ok document ∧
    ∃ element text, document.root.at? path = some element ∧ element.children = [.text text] ∧
      options.opaqueEncoding.decode text =
        (if options.opaqueEncoding.Aligned blocks then some blocks.flatten else none) ∧
      ∀ writing : EncodeOptions, writing.language = options.language →
        writing.opaqueEncoding = options.opaqueEncoding →
        (document.Affordable writing → document.Encodable writing →
          ∃ written, encodeDocument writing document = .ok written) ∧
        ∀ written, encodeDocument writing document = .ok written →
          ∃ inner, WritesAt writing path document inner written ∧
            (inner = [.opaqueData blocks.flatten, .finish] ↔
              options.opaqueEncoding.Aligned blocks) := by
  have hstream := Grammar.stream_of_streamAt Grammar.isElement_of_framed h
  obtain ⟨header, depth, pages, bytes, element, last, hframed, hat⟩ := Grammar.at?_of_streamAt h
  obtain ⟨name, list, token, found, marked, rfl⟩ := Grammar.element_of_framed hblocks hframed
  change options.language.tagName? _ _ = _ at found
  change options.language.isOpaque _ = _ at marked
  refine ⟨Decoding.run_of_stream hstream, _, _, hat, rfl, OpaqueEncoding.decode_join _ _, ?_⟩
  intro writing hlanguage hencoding
  refine ⟨fun hafford => (exists_encodeDocument_iff hafford).mpr, fun written hwritten => ?_⟩
  obtain ⟨inner, hinner⟩ := Encoding.exists_writesAt hwritten hat
  refine ⟨inner, hinner, ?_⟩
  rw [← hencoding]
  have hsite : document.root.at? path = some ⟨name, writing.language.uri? pages.tags, list,
      [.text (String.join (blocks.map writing.opaqueEncoding.encode))]⟩ := by
    rw [hlanguage, hencoding]
    exact hat
  exact Encoding.inner_iff_of_writesAt (hlanguage ▸ distinct) (hlanguage ▸ names) hblocks
    (hlanguage ▸ found) (hlanguage ▸ marked) hsite hinner

/-! ## A conversation -/

/-- A stream in which the number of a conversation is split into blocks. -/
def conversationStream (bytes : Bytes) : Bytes :=
  [0x03, 0x01, 0x6A, 0x00] ++ 0x00 :: 0x16 :: 0x49 :: ([] ++ (bytes ++ [0x01]))

/-- What such a stream denotes. -/
def conversation (blocks : List Bytes) : Document :=
  ⟨⟨"ConversationId", some "Email2:", [],
    [.text (String.join (blocks.map OpaqueEncoding.base64.encode))]⟩⟩

namespace Grammar

theorem headerForm_conversation :
    HeaderForm ⟨0x03, .number 1, .utf8, ⟨[]⟩⟩ [0x03, 0x01, 0x6A, 0x00] := by
  have hone : Number.Spells 1 [0x01] := Number.spells_encode 1
  have hcharset : Number.Spells Charset.utf8.mib [0x6A] := Number.spells_encode 106
  have hzero : Number.Spells 0 [0x00] := Number.spells_encode 0
  exact @HeaderForm.mk ⟨0x03, .number 1, .utf8, ⟨[]⟩⟩ [0x01] [0x6A] [0x00] (by decide)
    (.number hone (by decide)) (.registered hcharset) ⟨0, [0x00], hzero, rfl, rfl⟩ nofun

/-- The element of the stream, on the code page for mail. -/
theorem framed_conversation {blocks : List Bytes} {bytes : Bytes} (hblocks : blocks.flatten ≠ [])
    (framed : Blocks blocks bytes) {header : Header} :
    Framed blocks (Decoding.Context.of {} header) 1 ⟨0x16, 0⟩ (0x49 :: ([] ++ (bytes ++ [0x01])))
      (conversation blocks).root ⟨0x16, 0⟩ := by
  have huri : ActiveSync.language.uri? 0x16 = some "Email2:" := by decide +kernel
  have hname : ActiveSync.language.tagName? 0x16 (Code.base 0x49) = some "ConversationId" := by
    decide +kernel
  have tag : TagName (Decoding.Context.of {} header) 0x16 0x49 [] "ConversationId"
      (some "Email2:") := by
    rw [← huri]
    exact .registered (by decide) hname
  have start : Head (Decoding.Context.of {} header) 1 ⟨0x16, 0⟩ 0x49 ([] ++ [])
      ⟨"ConversationId", some "Email2:", [], []⟩ ⟨0x16, 0⟩ :=
    .mk (Nat.le_of_ble_eq_true rfl) tag (.absent (by decide))
  have hmarked : ActiveSync.language.isOpaque ⟨0x16, Code.base 0x49⟩ = true := by decide +kernel
  exact .mk start (by decide) (by decide) hmarked framed ((children_blocks_iff hblocks).mpr rfl)

theorem streamAt_conversation {blocks : List Bytes} {bytes : Bytes} (hblocks : blocks.flatten ≠ [])
    (framed : Blocks blocks bytes) :
    StreamAt {} (Framed blocks) [] (conversationStream bytes) (conversation blocks) :=
  .mk headerForm_conversation (.switchPage (.root (.here (framed_conversation hblocks framed))))

theorem counted_of_length {data : Bytes} {size : UInt32} (h : size.toNat = data.length) :
    Counted data (Number.encode size ++ data) :=
  ⟨size, Number.encode size, Number.spells_encode size, h, rfl⟩

end Grammar

/-- Four bytes in two blocks, of which the first has whole characters. -/
theorem Document.blocks_reencoded_conversation :
    decodeDocument {} (conversationStream [0xC3, 0x03, 0x00, 0x01, 0x02, 0xC3, 0x01, 0x03]) =
      .ok (conversation [[0x00, 0x01, 0x02], [0x03]]) ∧
    ∃ written, encodeDocument {} (conversation [[0x00, 0x01, 0x02], [0x03]]) = .ok written ∧
      WritesAt {} [] (conversation [[0x00, 0x01, 0x02], [0x03]])
        [.opaqueData [0x00, 0x01, 0x02, 0x03], .finish] written := by
  have hblocks : [[0x00, 0x01, 0x02], [0x03]].flatten ≠ ([] : Bytes) := by decide
  have framed : Grammar.Blocks [[0x00, 0x01, 0x02], [0x03]]
      [0xC3, 0x03, 0x00, 0x01, 0x02, 0xC3, 0x01, 0x03] :=
    .cons (@Grammar.counted_of_length [0x00, 0x01, 0x02] 3 rfl)
      (.cons (@Grammar.counted_of_length [0x03] 1 rfl) .nil)
  obtain ⟨hread, -, -, -, -, -, hwriting⟩ := blocks_reencoded ActiveSync.language_distinct
    ActiveSync.nodup_tagNames hblocks (Grammar.streamAt_conversation hblocks framed)
  obtain ⟨written, hwritten⟩ : ∃ written,
      encodeDocument {} (conversation [[0x00, 0x01, 0x02], [0x03]]) = .ok written :=
    ⟨[0x03, 0x01, 0x6A, 0x00, 0x00, 0x16, 0x49, 0xC3, 0x04, 0x00, 0x01, 0x02, 0x03, 0x01], by
      decide +kernel⟩
  obtain ⟨inner, hinner, haligned⟩ := (hwriting {} rfl rfl).2 written hwritten
  have hwhole : OpaqueEncoding.base64.Aligned [[0x00, 0x01, 0x02], [0x03]] := by decide
  exact ⟨hread, written, hwritten, haligned.mpr hwhole ▸ hinner⟩

/-- Two bytes in two blocks are read as a text that is not the text of any data, so that a string
takes the place of the blocks. -/
theorem decode_splitBlocks :
    Grammar.StreamAt {} (Framed [[0x00], [0x01]]) []
        (conversationStream [0xC3, 0x01, 0x00, 0xC3, 0x01, 0x01]) (conversation [[0x00], [0x01]]) ∧
      decodeDocument {} (conversationStream [0xC3, 0x01, 0x00, 0xC3, 0x01, 0x01]) =
        .ok ⟨⟨"ConversationId", some "Email2:", [], [.text "AA==AQ=="]⟩⟩ ∧
      OpaqueEncoding.base64.decode "AA==AQ==" = none ∧
      encodeDocument {} ⟨⟨"ConversationId", some "Email2:", [], [.text "AA==AQ=="]⟩⟩ =
        .ok ([0x03, 0x01, 0x6A, 0x00, 0x00, 0x16, 0x49] ++ 0x03 :: Utf8.encode "AA==AQ==" ++
          [0x00, 0x01]) := by
  have framed : Grammar.Blocks [[0x00], [0x01]] [0xC3, 0x01, 0x00, 0xC3, 0x01, 0x01] :=
    .cons (@Grammar.counted_of_length [0x00] 1 rfl)
      (.cons (@Grammar.counted_of_length [0x01] 1 rfl) .nil)
  refine ⟨Grammar.streamAt_conversation (by decide) framed, ?_, ?_, ?_⟩
  · decide +kernel
  · decide +kernel
  · decide +kernel

end BinaryXml
