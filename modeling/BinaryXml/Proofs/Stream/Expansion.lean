import Mathlib.Data.List.MinMax
import BinaryXml.Proofs.Document.Equality
import BinaryXml.Proofs.Document.Tally
import BinaryXml.Proofs.Opaque.Encoding
import BinaryXml.Proofs.Stream.Settled

/-! # How much a stream can grow

Every byte of a stream pays for at most one element, attribute or text, and for so many characters
at most: the longest string that a single byte can stand for.

* `Paid`: some bytes pay for a tally at a rate.
* `Language.longest`: the longest string that a language has a token for.
* `paid_of_operand`, `paid_of_attributeList`, `paid_of_content`: one production after the other.
* `Decoding.tally_of_decodeDocument`: the document of a stream is as large as the stream at most.
-/

namespace BinaryXml

set_option autoImplicit false

/-- No character set makes more than one character of a byte. -/
theorem Charset.length_of_decode {charset : Charset} {raw : Bytes} {text : String}
    (h : charset.decode raw = .ok text) : text.length ≤ raw.length := by
  rcases Charset.decode_cases h with rfl | rfl
  · rw [String.length_ofList, List.length_map]
  · exact Utf8.length_le_encode text

/-! ## Languages -/

/-- How many characters the tokens of a language stand for: tags, attribute names with the start of
a value, and attribute values. -/
def Language.lengths (language : Language) : List Nat :=
  (language.pages.flatMap fun codePage => codePage.tags.map (·.name.length)) ++
    language.attributeStarts.map (fun entry => entry.name.length + entry.valueStart.length) ++
      language.attributeValues.map (·.value.length)

/-- The most characters that a token of a language stands for. -/
def Language.longest (language : Language) : Nat :=
  language.lengths.foldr max 0

section Longest
variable {language : Language} {page token : UInt8}

theorem Language.le_longest {length : Nat} (h : length ∈ language.lengths) :
    length ≤ language.longest :=
  List.le_max_of_le' 0 h (Nat.le_refl length)

theorem Language.length_of_tagName? {name : String} (h : language.tagName? page token = some name) :
    name.length ≤ language.longest := by
  obtain ⟨codePage, hpage, hfound⟩ := Option.bind_eq_some_iff.mp h
  obtain ⟨entry, hentry, rfl⟩ := Option.map_eq_some_iff.mp hfound
  refine Language.le_longest (List.mem_append_left _ (List.mem_append_left _ ?_))
  exact List.mem_flatMap.mpr ⟨codePage, List.mem_of_find?_eq_some hpage,
    List.mem_map.mpr ⟨entry, List.mem_of_find?_eq_some hentry, rfl⟩⟩

theorem Language.length_of_attributeStartAt? {entry : AttributeStart}
    (h : language.attributeStartAt? page token = some entry) :
    entry.name.length + entry.valueStart.length ≤ language.longest := by
  refine Language.le_longest (List.mem_append_left _ (List.mem_append_right _ ?_))
  exact List.mem_map.mpr ⟨entry, List.mem_of_find?_eq_some h, rfl⟩

theorem Language.length_of_attributeValueAt? {entry : AttributeValue}
    (h : language.attributeValueAt? page token = some entry) :
    entry.value.length ≤ language.longest := by
  refine Language.le_longest (List.mem_append_right _ ?_)
  exact List.mem_map.mpr ⟨entry, List.mem_of_find?_eq_some h, rfl⟩

end Longest

/-! ## What bytes pay for -/

/-- Some bytes pay for a tally: each of them for one thing, and for as many characters as the rate
says. -/
structure Paid (rate : Nat) (tally : Tally) (bytes : Bytes) : Prop where
  items : tally.items ≤ bytes.length
  characters : tally.characters ≤ rate * bytes.length

namespace Paid

variable {rate : Nat} {tally tally' : Tally} {bytes front back : Bytes}

theorem zero (bytes : Bytes) : Paid rate 0 bytes :=
  ⟨Nat.zero_le _, Nat.zero_le _⟩

theorem append (h : Paid rate tally front) (h' : Paid rate tally' back) :
    Paid rate (tally + tally') (front ++ back) := by
  have hitems := h.items
  have hitems' := h'.items
  have hcharacters := h.characters
  have hcharacters' := h'.characters
  constructor
  · rw [Tally.items_add, List.length_append]
    omega
  · rw [Tally.characters_add, List.length_append, Nat.mul_add]
    omega

theorem behind (h : Paid rate tally back) (front : Bytes) : Paid rate tally (front ++ back) := by
  rw [← Tally.zero_add tally]
  exact (Paid.zero front).append h

theorem mono (h : Paid rate tally bytes) (items : tally'.items ≤ tally.items)
    (characters : tally'.characters ≤ tally.characters) : Paid rate tally' bytes :=
  ⟨Nat.le_trans items h.items, Nat.le_trans characters h.characters⟩

theorem single {count : Nat} (token : UInt8) (h : count ≤ rate) : Paid rate ⟨1, count⟩ [token] :=
  ⟨Nat.le_refl 1, by rw [List.length_singleton, Nat.mul_one]; exact h⟩

end Paid

namespace Grammar

open Decoding (Context)

/-- A rate at which the bytes of a stream pay for whatever they stand for. -/
structure Covers (context : Context) (rate : Nat) : Prop where
  data : 2 ≤ rate
  table : context.table.data.length ≤ rate
  language : context.language.longest ≤ rate

section Productions
variable {context : Context} {rate : Nat}

/-! ## Strings -/

theorem length_lt_of_counted {data bytes : Bytes} (h : Counted data bytes) :
    data.length < bytes.length := by
  obtain ⟨size, front, hspells, -, rfl⟩ := h
  have hpos := Number.length_pos_of_spells hspells
  rw [List.length_append]
  omega

/-- A string of the table may be as long as the table, wherever it is used. -/
theorem length_of_held {table raw : Bytes} {offset : UInt32} (h : Holds table offset raw) :
    raw.length ≤ table.length := by
  obtain ⟨before, after, rfl, -, -⟩ := h
  simp only [List.length_append]
  omega

theorem length_of_operand (covers : Covers context rate) {kind : StringToken} {bytes : Bytes}
    {text : String} (h : Operand context kind bytes text) : text.length ≤ rate * bytes.length := by
  have hdata := covers.data
  cases h with
  | inline frame decoded =>
    obtain ⟨rfl, -⟩ := frame
    calc text.length ≤ _ := Charset.length_of_decode decoded
      _ ≤ 1 * (_ ++ [0] : Bytes).length := by simp
      _ ≤ rate * _ := Nat.mul_le_mul_right _ (by omega)
  | table number held decoded =>
    calc text.length ≤ _ := Charset.length_of_decode decoded
      _ ≤ rate := Nat.le_trans (length_of_held held) covers.table
      _ ≤ rate * bytes.length := Nat.le_mul_of_pos_right _ (Number.length_pos_of_spells number)
  | entity number _ =>
    have hrate : 0 < rate := by omega
    rw [String.length_singleton]
    exact Nat.mul_pos hrate (Number.length_pos_of_spells number)
  | @data data _ frame =>
    calc (context.opaqueEncoding.encode data).length ≤ 2 * (data.length + 1) :=
        OpaqueEncoding.length_encode_le _ data
      _ ≤ rate * bytes.length := Nat.mul_le_mul hdata (length_lt_of_counted frame)

theorem paid_of_operand (covers : Covers context rate) {kind : StringToken} {bytes : Bytes}
    {text : String} (h : Operand context kind bytes text) :
    Paid rate ⟨0, text.length⟩ bytes :=
  ⟨Nat.zero_le _, length_of_operand covers h⟩

theorem paid_of_literalName (covers : Covers context rate) {bytes : Bytes} {name : String}
    (h : LiteralName context bytes name) : Paid rate ⟨0, name.length⟩ bytes := by
  unfold LiteralName at h
  split at h <;> exact paid_of_operand covers h

/-! ## Attributes -/

theorem paid_of_attributeName (covers : Covers context rate) {page token : UInt8} {bytes : Bytes}
    {name front : String} (h : AttributeName context page token bytes name front) :
    Paid rate ⟨1, name.length + front.length⟩ (token :: bytes) := by
  cases h with
  | literal literal =>
    refine ((Paid.single Code.literal (Nat.zero_le rate)).append
      (paid_of_literalName covers literal)).mono (Nat.le_refl 1) ?_
    simp
  | registered _ _ found =>
    exact Paid.single token (Nat.le_trans (Language.length_of_attributeStartAt? found) covers.language)

theorem paid_of_valuePieces (covers : Covers context rate) {page last : UInt8} {bytes : Bytes}
    {value : String} (h : ValuePieces context page bytes value last) :
    Paid rate ⟨0, value.length⟩ bytes := by
  induction h with
  | nothing => exact Paid.zero []
  | @switchPage _ new _ _ _ _ ih => exact ih.behind [Code.switchPage, new]
  | @string _ _ kind operand bytes text value first _ ih =>
    refine (((paid_of_operand covers first).append ih).behind [kind.code]).mono (Nat.le_refl 0) ?_
    rw [String.length_append]
    exact Nat.le_refl _
  | @registered _ _ token entry _ value _ _ found _ ih =>
    have hentry := Nat.le_trans (Language.length_of_attributeValueAt? found) covers.language
    refine ((Paid.single token hentry).append ih).mono (Nat.zero_le _) ?_
    rw [String.length_append]
    exact Nat.le_refl _

theorem paid_of_attributeList (covers : Covers context rate) {page last : UInt8} {bytes : Bytes}
    {list : List Attribute} (h : AttributeList context page bytes list last) :
    Paid rate (list.map Attribute.tally).sum bytes := by
  induction h with
  | finish => exact Paid.zero _
  | @switchPage _ new _ _ _ _ ih => exact ih.behind [Code.switchPage, new]
  | @item page next last token operand bytes others name front value list start pieces _ ih =>
    rw [List.map_cons, List.sum_cons, ← List.cons_append, ← List.append_assoc]
    refine Paid.append (((paid_of_attributeName covers start).append
      (paid_of_valuePieces covers pieces)).mono (Nat.le_refl 1) ?_) ih
    simp only [Attribute.tally, Tally.characters_add, String.length_append]
    omega

theorem paid_of_attributes (covers : Covers context rate) {page token last : UInt8} {bytes : Bytes}
    {list : List Attribute} (h : Attributes context page token bytes list last) :
    Paid rate (list.map Attribute.tally).sum bytes := by
  cases h with
  | absent => exact Paid.zero []
  | present _ items => exact paid_of_attributeList covers items

/-! ## Elements -/

theorem paid_of_tagName (covers : Covers context rate) {page token : UInt8} {bytes : Bytes}
    {name : String} {uri : Option String} (h : TagName context page token bytes name uri) :
    Paid rate ⟨1, name.length⟩ (token :: bytes) := by
  cases h with
  | literal _ literal =>
    refine ((Paid.single token (Nat.zero_le rate)).append
      (paid_of_literalName covers literal)).mono (Nat.le_refl 1) ?_
    simp
  | registered _ found =>
    exact Paid.single token (Nat.le_trans (Language.length_of_tagName? found) covers.language)

theorem paid_of_head (covers : Covers context rate) {depth : Nat} {pages next : Pages}
    {token : UInt8} {front : Bytes} {head : Element}
    (h : Head context depth pages token front head next) : Paid rate head.tally (token :: front) := by
  cases h with
  | mk _ tag attributes =>
    rw [Element.tally_mk, Node.tallyAll_nil, Tally.add_zero]
    exact (paid_of_tagName covers tag).append (paid_of_attributes covers attributes)

theorem tally_of_head {depth : Nat} {pages next : Pages} {token : UInt8} {front : Bytes}
    {head : Element} (h : Head context depth pages token front head next) (children : List Node) :
    ({ head with children } : Element).tally = head.tally + Node.tallyAll children := by
  obtain ⟨-, name, uri, list, rfl, -⟩ := head_eq h
  rw [Element.tally_mk, Element.tally_mk, Node.tallyAll_nil, Tally.add_zero]

theorem tallyAll_texts (run : List String) (rest : List Node) :
    Node.tallyAll (run.map .text ++ rest) =
      ⟨run.length, (String.join run).length⟩ + Node.tallyAll rest := by
  induction run with
  | nil => exact (Tally.zero_add _).symm
  | cons first run ih =>
    rw [List.map_cons, List.cons_append, Node.tallyAll_text, ih, ← Tally.add_assoc, String.join_cons]
    refine congrArg (· + Node.tallyAll rest) (Tally.ext ?_ ?_)
    · exact Nat.add_comm 1 run.length
    · exact (String.length_append _ _).symm

theorem tallyAll_of_children {whitespace : Whitespace} {pieces children : List Node}
    (made : Children whitespace pieces children) :
    (Node.tallyAll children).items ≤ (Node.tallyAll pieces).items ∧
      (Node.tallyAll children).characters ≤ (Node.tallyAll pieces).characters := by
  induction made with
  | nil => exact ⟨Nat.le_refl _, Nat.le_refl _⟩
  | @node node pieces children notText _ ih =>
    cases node with
    | element child =>
      exact ⟨Nat.add_le_add_left ih.1 _, Nat.add_le_add_left ih.2 _⟩
    | text content => exact absurd rfl (notText content)
    | comment content => exact ih
  | @texts run pieces children nonempty _ _ ih =>
    rw [tallyAll_texts, tallyAll_texts]
    have hkept : (whitespace.apply (String.join run)).toList.length ≤ run.length ∧
        (String.join (whitespace.apply (String.join run)).toList).length ≤
          (String.join run).length := by
      cases happly : whitespace.apply (String.join run) with
      | none => exact ⟨Nat.zero_le _, Nat.zero_le _⟩
      | some kept =>
        refine ⟨List.length_pos_iff.mpr nonempty, ?_⟩
        simpa using Whitespace.length_of_apply happly
    exact ⟨Nat.add_le_add hkept.1 ih.1, Nat.add_le_add hkept.2 ih.2⟩

/-- Each byte of content pays for one production at most. -/
theorem paid_of_content (covers : Covers context rate) {depth : Nat} {pages last : Pages}
    {bytes : Bytes} {pieces : List Node} (h : Content context depth pages bytes pieces last) :
    Paid rate (Node.tallyAll pieces) bytes := by
  -- A token of a text pays for its node, and the token of a child for the head of the element.
  induction h with
  | finish => exact Paid.zero _
  | @switchPage _ _ _ page _ _ _ ih => exact ih.behind [Code.switchPage, page]
  | @string _ _ _ kind operand bytes text pieces first _ ih =>
    rw [Node.tallyAll_text, ← List.cons_append]
    refine Paid.append (((Paid.single kind.code (Nat.zero_le rate)).append
      (paid_of_operand covers first)).mono (Nat.le_refl 1) ?_) ih
    simp
  | empty start _ _ ih =>
    rw [Node.tallyAll_element, ← List.cons_append]
    exact (paid_of_head covers start).append ih
  | nested start _ _ made _ ihContent ih =>
    rw [Node.tallyAll_element, tally_of_head start, ← List.cons_append, Tally.add_assoc]
    obtain ⟨hitems, hcharacters⟩ := tallyAll_of_children made
    exact (paid_of_head covers start).append ((ihContent.mono hitems hcharacters).append ih)

theorem paid_of_isElement (covers : Covers context rate) {depth : Nat} {pages last : Pages}
    {bytes : Bytes} {root : Element} (h : IsElement context depth pages bytes root last) :
    Paid rate root.tally bytes := by
  cases h with
  | empty start _ => exact paid_of_head covers start
  | nested start _ content made =>
    rw [tally_of_head start, ← List.cons_append]
    obtain ⟨hitems, hcharacters⟩ := tallyAll_of_children made
    exact (paid_of_head covers start).append
      ((paid_of_content covers content).mono hitems hcharacters)

theorem paid_of_body (covers : Covers context rate) {page : UInt8} {bytes : Bytes} {root : Element}
    (h : Body context page bytes root) : Paid rate root.tally bytes := by
  induction h with
  | @switchPage _ new _ _ _ ih => exact ih.behind [Code.switchPage, new]
  | root element => exact paid_of_isElement covers element

end Productions

/-! ## Streams -/

theorem length_pos_of_publicIdForm {id : PublicId} {bytes : Bytes} (h : PublicIdForm id bytes) :
    0 < bytes.length := by
  cases h with
  | number number _ => exact Number.length_pos_of_spells number
  | indexed mark _ =>
    rw [List.length_append]
    exact Nat.add_pos_left (Number.length_pos_of_spells mark) _

theorem length_pos_of_charsetForm {charset : Charset} {bytes : Bytes}
    (h : CharsetForm charset bytes) : 0 < bytes.length := by
  cases h with
  | unknown number | registered number => exact Number.length_pos_of_spells number

theorem length_of_headerForm {header : Header} {bytes : Bytes} (h : HeaderForm header bytes) :
    header.table.data.length + 4 ≤ bytes.length := by
  cases h with
  | mk _ identified encoded counted _ =>
    have hid := length_pos_of_publicIdForm identified
    have hcharset := length_pos_of_charsetForm encoded
    have htable := length_lt_of_counted counted
    simp only [List.length_cons, List.length_append]
    omega

end Grammar

namespace Decoding

/-- The document of a stream has fewer elements, attributes and texts than the stream has bytes,
and for each byte no more characters than the whole stream has bytes or the longest string that the
language has a token for. -/
theorem tally_of_decodeDocument {options : DecodeOptions} {stream : Bytes} {document : Document}
    (h : decodeDocument options stream = .ok document) :
    document.root.tally.items + 4 ≤ stream.length ∧
      document.root.tally.characters ≤
        stream.length * max stream.length options.language.longest := by
  cases stream_of_run h with
  | @mk header front back root start body =>
    have hfront := Grammar.length_of_headerForm start
    rw [List.length_append]
    generalize hrate : max (front.length + back.length) options.language.longest = rate
    have covers : Grammar.Covers (Context.of options header) rate := by
      refine ⟨?_, ?_, ?_⟩
      · omega
      · change header.table.data.length ≤ rate
        omega
      · change options.language.longest ≤ rate
        omega
    have paid := Grammar.paid_of_body covers body
    have hitems : root.tally.items + 4 ≤ front.length + back.length := by
      have hpaid := paid.items
      omega
    refine ⟨hitems, ?_⟩
    calc root.tally.characters ≤ rate * back.length := paid.characters
      _ ≤ rate * (front.length + back.length) := Nat.mul_le_mul_left _ (Nat.le_add_left _ _)
      _ = (front.length + back.length) * rate := Nat.mul_comm _ _

/-- A stream in which one string of the table is a tag, the name of an attribute, its value and,
from its second character on, a part of a text. -/
def repeatedStream : Bytes := [
  0x03, 0x01, 0x6A, 0x04, 0x61, 0x62, 0x63, 0x00,
  0xC4, 0x00, 0x04, 0x00, 0x83, 0x00, 0x01, 0x83, 0x01, 0xC3, 0x01, 0xFF, 0x01]

theorem tally_of_decodeDocument_repeatedStream :
    let options : DecodeOptions := {}
    let repeated : Document := ⟨⟨"abc", none, [⟨"abc", "abc"⟩], [.text "bc/w=="]⟩⟩
    decodeDocument options repeatedStream = .ok repeated ∧ repeated.root.tally = ⟨3, 15⟩ ∧
      repeated.root.tally.items + 4 ≤ repeatedStream.length ∧
        repeated.root.tally.characters ≤
          repeatedStream.length * max repeatedStream.length options.language.longest := by
  intro options repeated
  have hread : decodeDocument options repeatedStream = .ok repeated := by decide +kernel
  exact ⟨hread, by decide +kernel, tally_of_decodeDocument hread⟩

end Decoding

end BinaryXml
