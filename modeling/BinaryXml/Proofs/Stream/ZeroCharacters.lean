import BinaryXml.Proofs.Stream.Canonical
import BinaryXml.Proofs.Stream.Places

/-! # Zero characters in a stream

A string of a stream ends at its first zero byte, and no text of opaque data has a zero character.
That leaves the references to a character by its number, and the number may be zero.

* `zero_of_operand`: no other kind of operand gives a zero character.
* `RefersToZero`: an element with such a reference in its attributes or directly inside.
* `Decoding.decode_of_refersToZero`: a stream with such an element is read all the same.
* `Decoding.spellable_iff_of_decode`: a document that was read has a zero character just if there is
  such an element in its stream.
-/

namespace BinaryXml

open Encoding (Spellable SpellableAll CleanLanguage)

set_option autoImplicit false

namespace Grammar

open Decoding (Context Inside arrange)

/-! ## Operands -/

/-- A character set gives a zero character for a zero byte only. -/
theorem zero_notMem_of_decode {charset : Charset} {raw : Bytes} {text : String}
    (h : charset.decode raw = .ok text) (hraw : 0 ∉ raw) : '\x00' ∉ text.toList := by
  rcases Charset.decode_cases h with rfl | rfl
  · rw [String.toList_ofList, List.mem_map]
    rintro ⟨b, hb, hchar⟩
    have hvalid : b.toNat.isValidChar := by
      have := b.toNat_lt
      exact .inl (by omega)
    have hnumber : b.toNat = (0 : UInt8).toNat := by
      rw [← Utf8.char_toNat_ofNat hvalid, hchar]
      rfl
    exact hraw (UInt8.toNat_inj.mp hnumber ▸ hb)
  · rwa [← Utf8.zero_mem_encode_iff]

section Operands
variable {context : Context}

/-- The only operand with a zero character is its number. -/
theorem zero_of_operand {kind : StringToken} {bytes : Bytes} {text : String}
    (h : Operand context kind bytes text) (hzero : '\x00' ∈ text.toList) :
    kind = .entity ∧ text = "\x00" ∧ Number.Spells 0 bytes := by
  cases h with
  | inline frame decoded => exact absurd hzero (zero_notMem_of_decode decoded frame.2)
  | table _ held decoded =>
    obtain ⟨-, -, -, -, hraw⟩ := held
    exact absurd hzero (zero_notMem_of_decode decoded hraw)
  | @entity code _ c number char =>
    rw [String.toList_singleton, List.mem_singleton] at hzero
    subst hzero
    have hcode : code = 0 := UInt32.toNat_inj.mp char.symm
    exact ⟨rfl, rfl, hcode ▸ number⟩
  | data => exact absurd hzero (OpaqueEncoding.zero_notMem_encode _ _)

theorem zero_notMem_of_literalName {bytes : Bytes} {name : String}
    (h : LiteralName context bytes name) : '\x00' ∉ name.toList := by
  intro hzero
  unfold LiteralName at h
  split at h
  · cases (zero_of_operand h hzero).1
  · cases (zero_of_operand h hzero).1

theorem zero_notMem_of_attributeName (clean : CleanLanguage context.language) {page token : UInt8}
    {bytes : Bytes} {name front : String} (h : AttributeName context page token bytes name front) :
    '\x00' ∉ name.toList ∧ '\x00' ∉ front.toList := by
  cases h with
  | literal literal => exact ⟨zero_notMem_of_literalName literal, by simp⟩
  | registered _ _ found => exact clean.starts _ (List.mem_of_find?_eq_some found)

theorem zero_notMem_of_tagName (clean : CleanLanguage context.language) {page token : UInt8}
    {bytes : Bytes} {name : String} {uri : Option String}
    (h : TagName context page token bytes name uri) : '\x00' ∉ name.toList := by
  cases h with
  | literal _ literal => exact zero_notMem_of_literalName literal
  | registered _ found =>
    obtain ⟨codePage, hpage, hfound⟩ := Option.bind_eq_some_iff.mp found
    obtain ⟨tag, htag, rfl⟩ := Option.map_eq_some_iff.mp hfound
    exact clean.tags codePage (Language.codePage?_eq_some hpage).1 tag
      (List.mem_of_find?_eq_some htag)

end Operands

/-! ## Attributes -/

section Attributes
variable {context : Context}

theorem valuePieces_append {page middle last : UInt8} {front back : Bytes} {value value' : String}
    (h : ValuePieces context page front value middle)
    (rest : ValuePieces context middle back value' last) :
    ValuePieces context page (front ++ back) (value ++ value') last := by
  induction h with
  | nothing => rwa [List.nil_append, String.empty_append]
  | switchPage _ ih => exact .switchPage (ih rest)
  | string first _ ih =>
    rw [List.cons_append, List.append_assoc, String.append_assoc]
    exact .string first (ih rest)
  | registered base high found _ ih =>
    rw [List.cons_append, String.append_assoc]
    exact .registered base high found (ih rest)

/-- The pieces of a value, with a reference to the zero character among them. -/
inductive RefersInValue (context : Context) (page : UInt8) : Bytes → String → UInt8 → Prop
  | mk {middle last : UInt8} {before number behind : Bytes} {front back : String}
      (pieces : ValuePieces context page before front middle) (zero : Number.Spells 0 number)
      (rest : ValuePieces context middle behind back last) :
      RefersInValue context page (before ++ Code.entity :: (number ++ behind))
        (front ++ ("\x00" ++ back)) last

/-- An attribute list with such a value. -/
inductive RefersInList (context : Context) : UInt8 → Bytes → List Attribute → UInt8 → Prop
  | switchPage {old new last : UInt8} {bytes : Bytes} {list : List Attribute}
      (rest : RefersInList context new bytes list last) :
      RefersInList context old (Code.switchPage :: new :: bytes) list last
  | here {page next last token : UInt8} {operand bytes others : Bytes} {name front value : String}
      {list : List Attribute} (start : AttributeName context page token operand name front)
      (refers : RefersInValue context page bytes value next)
      (rest : AttributeList context next others list last) :
      RefersInList context page (token :: (operand ++ (bytes ++ others)))
        (⟨name, front ++ value⟩ :: list) last
  | behind {page next last token : UInt8} {operand bytes others : Bytes} {name front value : String}
      {list : List Attribute} (start : AttributeName context page token operand name front)
      (pieces : ValuePieces context page bytes value next)
      (rest : RefersInList context next others list last) :
      RefersInList context page (token :: (operand ++ (bytes ++ others)))
        (⟨name, front ++ value⟩ :: list) last

/-- Pieces in front do not hide a reference. -/
theorem RefersInValue.after {page middle last : UInt8} {before bytes : Bytes} {front value : String}
    (pieces : ValuePieces context page before front middle)
    (h : RefersInValue context middle bytes value last) :
    RefersInValue context page (before ++ bytes) (front ++ value) last := by
  cases h with
  | mk pieces' zero rest =>
    rw [← List.append_assoc, ← String.append_assoc]
    exact .mk (valuePieces_append pieces pieces') zero rest

theorem zero_of_refersInValue {page last : UInt8} {bytes : Bytes} {value : String}
    (h : RefersInValue context page bytes value last) :
    ValuePieces context page bytes value last ∧ '\x00' ∈ value.toList := by
  cases h with
  | @mk middle last before number behind front back pieces zero rest =>
    refine ⟨valuePieces_append pieces ?_, by simp⟩
    have first : Operand context .entity number (String.singleton '\x00') := .entity zero rfl
    exact .string first rest

theorem refersInValue_of_zero (clean : CleanLanguage context.language) {page last : UInt8}
    {bytes : Bytes} {value : String} (h : ValuePieces context page bytes value last)
    (hzero : '\x00' ∈ value.toList) : RefersInValue context page bytes value last := by
  -- On the pieces of the value: the first one with a zero character is a reference, as no other
  -- operand and no entry of the language has one.
  induction h with
  | nothing => cases hzero
  | @switchPage old new last bytes value _ ih =>
    have pieces : ValuePieces context old [Code.switchPage, new] "" new := .switchPage .nothing
    rw [← String.empty_append (s := value)]
    exact .after pieces (ih hzero)
  | @string page last kind operand bytes text value first rest ih =>
    rw [String.toList_append, List.mem_append] at hzero
    by_cases htext : '\x00' ∈ text.toList
    · obtain ⟨rfl, rfl, zero⟩ := zero_of_operand first htext
      rw [← String.empty_append (s := "\x00" ++ value)]
      exact .mk .nothing zero rest
    · have pieces : ValuePieces context page (kind.code :: (operand ++ [])) (text ++ "") page :=
        .string first .nothing
      rw [List.append_nil, String.append_empty] at pieces
      exact .after pieces (ih (hzero.resolve_left htext))
  | @registered page last token entry bytes value base high found rest ih =>
    rw [String.toList_append, List.mem_append] at hzero
    have pieces : ValuePieces context page [token] (entry.value ++ "") page :=
      .registered base high found .nothing
    rw [String.append_empty] at pieces
    have hentry := clean.values entry (List.mem_of_find?_eq_some found)
    exact .after pieces (ih (hzero.resolve_left hentry))

theorem zero_of_refersInList {page last : UInt8} {bytes : Bytes} {list : List Attribute}
    (h : RefersInList context page bytes list last) :
    AttributeList context page bytes list last ∧
      ∃ first ∈ list, '\x00' ∈ first.value.toList := by
  induction h with
  | switchPage _ ih => exact ⟨.switchPage ih.1, ih.2⟩
  | here start refers rest =>
    obtain ⟨pieces, hzero⟩ := zero_of_refersInValue refers
    refine ⟨.item start pieces rest, _, List.mem_cons_self, ?_⟩
    rw [String.toList_append]
    exact List.mem_append_right _ hzero
  | behind start pieces _ ih =>
    obtain ⟨rest, first, hmem, hzero⟩ := ih
    exact ⟨.item start pieces rest, first, List.mem_cons_of_mem _ hmem, hzero⟩

theorem refersInList_of_zero (clean : CleanLanguage context.language) {page last : UInt8}
    {bytes : Bytes} {list : List Attribute} (h : AttributeList context page bytes list last)
    (hzero : ¬ ∀ first ∈ list, '\x00' ∉ first.name.toList ∧ '\x00' ∉ first.value.toList) :
    RefersInList context page bytes list last := by
  -- On the list, by whether its first attribute has the zero character.
  induction h with
  | finish => simp at hzero
  | switchPage _ ih => exact .switchPage (ih hzero)
  | @item page next last token operand bytes others name front value list start pieces rest ih =>
    obtain ⟨hname, hfront⟩ := zero_notMem_of_attributeName clean start
    by_cases hvalue : '\x00' ∈ value.toList
    · exact .here start (refersInValue_of_zero clean pieces hvalue) rest
    · refine .behind start pieces (ih fun hrest => hzero ?_)
      rw [List.forall_mem_cons, String.toList_append, List.mem_append]
      exact ⟨⟨hname, not_or.mpr ⟨hfront, hvalue⟩⟩, hrest⟩

end Attributes

/-! ## Elements -/

/-- An element with a reference to the zero character in its attributes or directly inside. -/
inductive RefersToZero (context : Context) : ElementForm
  | attributes {depth : Nat} {pages last : Pages} {token next : UInt8} {front bytes back : Bytes}
      {name : String} {uri : Option String} {list : List Attribute} {pieces : List Node}
      (deep : depth ≤ context.maxDepth) (tag : TagName context pages.tags token front name uri)
      (flag : token &&& Code.hasAttributes ≠ 0)
      (refers : RefersInList context pages.attributes bytes list next)
      (inside : Inside context depth token ⟨pages.tags, next⟩ back pieces last) :
      RefersToZero context depth pages (token :: (front ++ (bytes ++ back)))
        ⟨name, uri, list, arrange context.whitespace pieces⟩ last
  | text {depth : Nat} {pages next middle last : Pages} {token : UInt8}
      {front before number behind : Bytes} {head : Element} {parts others children : List Node}
      (start : Head context depth pages token front head next)
      (flag : token &&& Code.hasContent ≠ 0)
      (segment : Segment context depth next before parts middle) (zero : Number.Spells 0 number)
      (rest : Content context depth middle behind others last)
      (made : Children context.whitespace (parts ++ .text "\x00" :: others) children) :
      RefersToZero context depth pages
        (token :: (front ++ (before ++ Code.entity :: (number ++ behind))))
        { head with children } last

section Elements
variable {context : Context} {depth : Nat} {pages last : Pages} {bytes : Bytes}

theorem content_zero {number behind : Bytes} {others : List Node} (zero : Number.Spells 0 number)
    (rest : Content context depth pages behind others last) :
    Content context depth pages (Code.entity :: (number ++ behind)) (.text "\x00" :: others)
      last := by
  have first : Operand context .entity number (String.singleton '\x00') := .entity zero rfl
  exact .string first rest

theorem isElement_of_refersToZero {root : Element}
    (h : RefersToZero context depth pages bytes root last) :
    IsElement context depth pages bytes root last := by
  cases h with
  | @attributes _ _ _ _ next _ _ _ _ _ _ _ deep tag flag refers inside =>
    have items := (zero_of_refersInList refers).1
    exact Decoding.isElement_iff.mpr ⟨deep, (_, _), pages, _, _, rfl, ⟨tag, rfl⟩, _,
      ⟨pages.tags, next⟩, _, _, rfl, ⟨rfl, .present flag items⟩, _, inside, rfl⟩
  | text start flag segment zero rest made =>
    exact .nested start flag (content_append segment (content_zero zero rest)) made

theorem not_spellable_of_refersToZero {root : Element}
    (h : RefersToZero context depth pages bytes root last) : ¬ Spellable root := by
  cases h with
  | attributes deep tag flag refers inside =>
    obtain ⟨-, first, hmem, hzero⟩ := zero_of_refersInList refers
    rw [Spellable]
    exact fun hspell => (hspell.2.1 first hmem).2 hzero
  | text start flag segment zero rest made =>
    rw [Spellable, Encoding.spellableAll_iff_of_children made, Encoding.spellableAll_append,
      SpellableAll]
    exact fun hspell => hspell.2.2.2.1 (by simp)

theorem not_spellable_of_elementAt {path : List Nat} {root : Element}
    (h : ElementAt context (RefersToZero context) path depth pages bytes root last) :
    ¬ Spellable root := by
  induction h with
  | here found => exact not_spellable_of_refersToZero found
  | inside _ _ _ _ _ made ih =>
    rw [Spellable, Encoding.spellableAll_iff_of_children made, Encoding.spellableAll_append,
      SpellableAll]
    exact fun hspell => ih hspell.2.2.2.1

/-- Content with a reference to the zero character, directly or in one of its elements. -/
inductive RefersInside (context : Context) (depth : Nat) (pages : Pages) :
    Bytes → List Node → Pages → Prop
  | text {middle last : Pages} {before number behind : Bytes} {parts others : List Node}
      (segment : Segment context depth pages before parts middle) (zero : Number.Spells 0 number)
      (rest : Content context depth middle behind others last) :
      RefersInside context depth pages (before ++ Code.entity :: (number ++ behind))
        (parts ++ .text "\x00" :: others) last
  | element {path : List Nat} {middle after last : Pages} {before bytes behind : Bytes}
      {child : Element} {parts others : List Node}
      (segment : Segment context depth pages before parts middle)
      (found : ElementAt context (RefersToZero context) path (depth + 1) middle bytes child after)
      (rest : Content context depth after behind others last) :
      RefersInside context depth pages (before ++ (bytes ++ behind))
        (parts ++ .element child :: others) last

theorem RefersInside.after {middle : Pages} {front back : Bytes} {parts others : List Node}
    (segment : Segment context depth pages front parts middle)
    (h : RefersInside context depth middle back others last) :
    RefersInside context depth pages (front ++ back) (parts ++ others) last := by
  cases h with
  | @text _ _ before _ _ inner _ segment' zero rest =>
    rw [← List.append_assoc front before, ← List.append_assoc parts inner]
    exact .text (segment_append segment segment') zero rest
  | @element _ _ _ _ before _ _ _ inner _ segment' found rest =>
    rw [← List.append_assoc front before, ← List.append_assoc parts inner]
    exact .element (segment_append segment segment') found rest

theorem elementAt_of_refersInside {next : Pages} {token : UInt8} {front : Bytes} {head : Element}
    {parts children : List Node} (start : Head context depth pages token front head next)
    (flag : token &&& Code.hasContent ≠ 0) (h : RefersInside context depth next bytes parts last)
    (made : Children context.whitespace parts children) :
    ∃ path, ElementAt context (RefersToZero context) path depth pages (token :: (front ++ bytes))
      { head with children } last := by
  cases h with
  | text segment zero rest => exact ⟨[], .here (.text start flag segment zero rest made)⟩
  | element segment found rest => exact ⟨_, .inside start flag segment found rest made⟩

theorem refersToZero_of_head (clean : CleanLanguage context.language) {next : Pages}
    {token : UInt8} {front : Bytes} {head : Element} {pieces : List Node}
    (start : Head context depth pages token front head next)
    (inside : Inside context depth token next bytes pieces last)
    (hzero : ¬ Spellable { head with children := arrange context.whitespace pieces })
    (hpieces : SpellableAll pieces) :
    RefersToZero context depth pages (token :: (front ++ bytes))
      { head with children := arrange context.whitespace pieces } last := by
  cases start with
  | @mk _ _ _ _ _ list deep tag attributes =>
    rw [Spellable, Encoding.spellableAll_arrange] at hzero
    have hlist : ¬ ∀ first : Attribute, first ∈ list →
        '\x00' ∉ first.name.toList ∧ '\x00' ∉ first.value.toList :=
      fun hlist => hzero ⟨zero_notMem_of_tagName clean tag, hlist, hpieces⟩
    rw [List.append_assoc]
    cases attributes with
    | absent => simp at hlist
    | present flag items =>
      exact .attributes deep tag flag (refersInList_of_zero clean items hlist) inside

theorem exists_elementAt_of_empty (clean : CleanLanguage context.language) {token : UInt8}
    {front : Bytes} {head : Element} (start : Head context depth pages token front head last)
    (flag : token &&& Code.hasContent = 0) (hzero : ¬ Spellable head) :
    ∃ path, ElementAt context (RefersToZero context) path depth pages (token :: front) head
      last := by
  have inside : Inside context depth token last [] [] last := by
    rw [Inside, if_neg (not_not_intro flag)]
    exact ⟨rfl, rfl, rfl⟩
  have hempty : head = { head with children := arrange context.whitespace [] } :=
    head_children start
  rw [hempty] at hzero ⊢
  have found := refersToZero_of_head clean start inside hzero trivial
  rw [List.append_nil] at found
  exact ⟨[], .here found⟩

theorem exists_elementAt_of_nested (clean : CleanLanguage context.language) {next : Pages}
    {token : UInt8} {front : Bytes} {head : Element} {parts children : List Node}
    (start : Head context depth pages token front head next)
    (flag : token &&& Code.hasContent ≠ 0) (content : Content context depth next bytes parts last)
    (made : Children context.whitespace parts children)
    (hparts : ¬ SpellableAll parts → RefersInside context depth next bytes parts last)
    (hzero : ¬ Spellable { head with children }) :
    ∃ path, ElementAt context (RefersToZero context) path depth pages (token :: (front ++ bytes))
      { head with children } last := by
  by_cases hspell : SpellableAll parts
  · have inside : Inside context depth token next bytes parts last := by
      rwa [Inside, if_pos flag]
    obtain rfl := Decoding.children_iff.mp made
    exact ⟨[], .here (refersToZero_of_head clean start inside hzero hspell)⟩
  · exact elementAt_of_refersInside start flag (hparts hspell) made

/-- Content has a reference where one of its pieces has a zero character. -/
theorem refersInside_of_content (clean : CleanLanguage context.language) {pieces : List Node}
    (h : Content context depth pages bytes pieces last) (hzero : ¬ SpellableAll pieces) :
    RefersInside context depth pages bytes pieces last := by
  -- The piece in front is the place, or it is put in front of the place in the others.
  induction h with
  | finish => exact absurd trivial hzero
  | @switchPage depth pages last page bytes pieces _ ih =>
    have segment : Segment context depth pages [Code.switchPage, page] []
        ⟨page, pages.attributes⟩ :=
      .switchPage .nil
    exact .after segment (ih hzero)
  | @string depth pages last kind operand bytes text pieces first rest ih =>
    rw [SpellableAll] at hzero
    by_cases htext : '\x00' ∈ text.toList
    · obtain ⟨rfl, rfl, zero⟩ := zero_of_operand first htext
      exact .text .nil zero rest
    · have segment : Segment context depth pages (kind.code :: (operand ++ [])) [.text text]
          pages :=
        .string first .nil
      rw [List.append_nil] at segment
      exact .after segment (ih fun hrest => hzero ⟨htext, hrest⟩)
  | @empty depth pages next last token front bytes head pieces start flag rest ih =>
    rw [SpellableAll] at hzero
    by_cases hhead : Spellable head
    · have segment : Segment context depth pages (token :: front ++ []) [.element head] next :=
        .element (.empty start flag) .nil
      rw [List.append_nil] at segment
      exact .after segment (ih fun hrest => hzero ⟨hhead, hrest⟩)
    · obtain ⟨path, found⟩ := exists_elementAt_of_empty clean start flag hhead
      exact .element .nil found rest
  | @nested depth pages next inside last token front inner bytes head parts children pieces start
      flag content made rest ihContent ih =>
    rw [SpellableAll] at hzero
    rw [← List.append_assoc front, ← List.cons_append]
    by_cases hchild : Spellable { head with children }
    · have segment : Segment context depth pages (token :: (front ++ inner) ++ [])
          [.element { head with children }] inside :=
        .element (.nested start flag content made) .nil
      rw [List.append_nil] at segment
      exact .after segment (ih fun hrest => hzero ⟨hchild, hrest⟩)
    · obtain ⟨path, found⟩ :=
        exists_elementAt_of_nested clean start flag content made ihContent hchild
      exact .element .nil found rest

/-- An element has a reference somewhere if it has a zero character. -/
theorem exists_elementAt_of_isElement (clean : CleanLanguage context.language) {root : Element}
    (h : IsElement context depth pages bytes root last) (hzero : ¬ Spellable root) :
    ∃ path, ElementAt context (RefersToZero context) path depth pages bytes root last := by
  cases h with
  | empty start flag => exact exists_elementAt_of_empty clean start flag hzero
  | nested start flag content made =>
    exact exists_elementAt_of_nested clean start flag content made
      (refersInside_of_content clean content) hzero

theorem exists_bodyAt_of_body (clean : CleanLanguage context.language) {page : UInt8}
    {root : Element} (h : Body context page bytes root) (hzero : ¬ Spellable root) :
    ∃ path, BodyAt context (RefersToZero context) path page bytes root := by
  induction h with
  | switchPage _ ih =>
    obtain ⟨path, found⟩ := ih hzero
    exact ⟨path, .switchPage found⟩
  | root element =>
    obtain ⟨path, found⟩ := exists_elementAt_of_isElement clean element hzero
    exact ⟨path, .root found⟩

theorem not_spellable_of_bodyAt {path : List Nat} {page : UInt8} {root : Element}
    (h : BodyAt context (RefersToZero context) path page bytes root) : ¬ Spellable root := by
  induction h with
  | switchPage _ ih => exact ih
  | root found => exact not_spellable_of_elementAt found

end Elements

end Grammar

/-! ## Documents that are read -/

namespace Decoding

open Grammar (StreamAt RefersToZero)

variable {options : DecodeOptions} {stream : Bytes} {document : Document}

theorem decode_of_refersToZero {path : List Nat}
    (found : StreamAt options RefersToZero path stream document) :
    decodeDocument options stream = .ok document ∧ ¬ Spellable document.root := by
  refine ⟨run_of_stream (Grammar.stream_of_streamAt Grammar.isElement_of_refersToZero found), ?_⟩
  cases found with
  | mk _ body => exact Grammar.not_spellable_of_bodyAt body

/-- If no string of the language has a zero character, a document that was read has none either,
unless its stream refers to one by its number. -/
theorem spellable_iff_of_decode (clean : CleanLanguage options.language)
    (h : decodeDocument options stream = .ok document) :
    Spellable document.root ↔ ¬ ∃ path, StreamAt options RefersToZero path stream document := by
  constructor
  · rintro hspell ⟨path, found⟩
    exact (decode_of_refersToZero found).2 hspell
  · -- That there is no reference says nothing about the shape of the stream, so the place is looked
    -- for in a document that is taken to have a zero character.
    intro hnone
    by_contra hzero
    cases stream_of_run h with
    | mk start body =>
      obtain ⟨path, found⟩ := Grammar.exists_bodyAt_of_body clean body hzero
      exact hnone ⟨path, .mk start found⟩

/-- An element with nothing but a reference to the zero character. -/
def zeroReference : Bytes := [0x03, 0x01, 0x6A, 0x00, 0x45, 0x02, 0x00, 0x01]

/-- What that stream denotes. -/
def zeroDocument : Document := ⟨⟨"Sync", some "AirSync:", [], [.text "\x00"]⟩⟩

theorem spellable_iff_of_decode_zeroReference :
    decodeDocument {} zeroReference = .ok zeroDocument ∧
      ∃ path, StreamAt {} RefersToZero path zeroReference zeroDocument := by
  have hread : decodeDocument {} zeroReference = .ok zeroDocument := by decide +kernel
  have hspell := spellable_iff_of_decode ActiveSync.cleanLanguage hread
  refine ⟨hread, not_not.mp fun hnone => ?_⟩
  simpa [zeroDocument, Spellable, SpellableAll] using hspell.mpr hnone

/-- A language without zero characters does not keep them out of documents, and a document that was
read with one cannot be written again. -/
theorem decode_zeroReference :
    CleanLanguage ActiveSync.language ∧ '\x00' ∉ ActiveSync.language.fpi.toList ∧
      decodeDocument {} zeroReference = .ok zeroDocument ∧ ¬ Spellable zeroDocument.root ∧
        encodeDocument {} zeroDocument = .error (.encoding (.nulInString 0)) := by
  refine ⟨ActiveSync.cleanLanguage, by decide, by decide +kernel, ?_, by decide +kernel⟩
  simp [zeroDocument, Spellable, SpellableAll]

end Decoding

end BinaryXml
