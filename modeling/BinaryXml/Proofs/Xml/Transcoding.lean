import BinaryXml.Proofs.Xml.Layout
import BinaryXml.Proofs.Xml.Prolog

/-! # Written documents as UTF-8

* `Charset.toUtf8`: the same characters in UTF-8.
* `encodable_of_element`: an element is written in characters of its character set.
* `exists_writeDocument`: a document is written, and what it is in UTF-8.
* `kind_of_writeDocument`: a document that is not written holds something that cannot be.
-/

namespace BinaryXml

open Writing

set_option autoImplicit false

/-- Bytes in a character set, with the same characters in UTF-8. -/
def Charset.toUtf8 : Charset → Bytes → Bytes
  | .latin1, bytes => Utf8.encodeChars (bytes.map fun b => Char.ofNat b.toNat)
  | .utf8, bytes | .usAscii, bytes => bytes

/-- The bytes of a text whose characters are in a character set. -/
def Charset.encode : Charset → String → Bytes
  | .latin1, text => text.toList.map fun c => UInt8.ofNat c.toNat
  | .utf8, text | .usAscii, text => Utf8.encode text

/-! ## Characters of a character set -/

section Encodable
variable {charset : Charset}

theorem encodable_append {front back : String} (h : Encodable charset front)
    (h' : Encodable charset back) : Encodable charset (front ++ back) := by
  intro c hc
  rw [String.toList_append, List.mem_append] at hc
  exact hc.elim (h c) (h' c)

theorem encodable_of_ascii {text : String} (h : ∀ c ∈ text.toList, c.toNat < 0x80) :
    Encodable charset text := fun c hc => canEncode_of_ascii (h c hc)

/-- References take the place of other characters. -/
theorem encodable_escape (inAttribute : Bool) (data : String) :
    Encodable charset (escape charset inAttribute data) := by
  intro c hc
  rw [escape, String.toList_ofList, List.mem_flatMap] at hc
  obtain ⟨d, -, hc⟩ := hc
  unfold escapeForeign at hc
  split at hc
  · rename_i hencode
    rwa [List.mem_singleton.mp hc]
  · rename_i hforeign
    exact canEncode_of_ascii ((Reference.names_digits (le_toNat_of_foreign hforeign)).ascii c hc)

theorem encodable_commentText (data : String) : Encodable charset (commentText charset data) := by
  intro c hc
  rw [commentText, String.toList_ofList, List.mem_map] at hc
  obtain ⟨d, -, rfl⟩ := hc
  split
  · assumption
  · exact canEncode_of_ascii (by decide)

theorem encodable_lineBreak (layout : Option Layout) : Encodable charset (lineBreak layout) := by
  have hescape : Encodable charset (escape charset false (lineBreak layout)) :=
    encodable_escape false _
  rwa [escape_lineBreak] at hescape

theorem encodable_attributeText {name value : String} (h : Encodable charset name) :
    Encodable charset (attributeText charset name value) := by
  have hspace : Encodable charset " " := encodable_of_ascii (by decide)
  have hequals : Encodable charset "=\"" := encodable_of_ascii (by decide)
  have hquote : Encodable charset "\"" := encodable_of_ascii (by decide)
  exact encodable_append (encodable_append (encodable_append (encodable_append hspace h) hequals)
    (encodable_escape true value)) hquote

theorem encodable_of_attributes {list : List Attribute} {text : String}
    (h : Writing.attributes charset list = .ok text) : Encodable charset text := by
  induction list generalizing text with
  | nil =>
    cases h
    exact encodable_of_ascii (by decide)
  | cons first rest ih =>
    obtain ⟨hname, h⟩ := Parsing.check_eq_ok_iff.mp h
    obtain ⟨others, hothers, h⟩ := Parsing.bind_eq_ok_iff.mp h
    cases h
    exact encodable_append (encodable_attributeText (checkName_eq_ok_iff.mp hname)) (ih hothers)

theorem encodable_declaration (scope uri : Option String) :
    Encodable charset (declaration charset scope uri).1 := by
  have hname : Encodable charset "xmlns" := encodable_of_ascii (by decide)
  have hnothing : Encodable charset "" := encodable_of_ascii (by decide)
  unfold declaration
  split
  · exact hnothing
  · split
    · exact encodable_attributeText hname
    · exact hnothing

mutual

theorem encodable_of_element {scope : Option String} {layout : Option Layout} : ∀ {root : Element}
    {text : String}, element charset scope layout root = .ok text → Encodable charset text
  | ⟨name, uri, list, children⟩, text, h => by
    have hopen : Encodable charset "<" := encodable_of_ascii (by decide)
    have hempty : Encodable charset "/>" := encodable_of_ascii (by decide)
    have hclose : Encodable charset ">" := encodable_of_ascii (by decide)
    have hend : Encodable charset "</" := encodable_of_ascii (by decide)
    have hdeclared : Encodable charset (declaration charset scope uri).1 := encodable_declaration scope uri
    rw [element] at h
    obtain ⟨hname, h⟩ := Parsing.check_eq_ok_iff.mp h
    obtain ⟨attributesText, hattributes, h⟩ := Parsing.bind_eq_ok_iff.mp h
    have hstart : Encodable charset
        ("<" ++ name ++ (declaration charset scope uri).1 ++ attributesText) :=
      encodable_append (encodable_append (encodable_append hopen (checkName_eq_ok_iff.mp hname))
        hdeclared) (encodable_of_attributes hattributes)
    dsimp only at h
    split at h
    · cases h
      exact encodable_append hstart hempty
    · obtain ⟨inside, hinside, h⟩ := Parsing.bind_eq_ok_iff.mp h
      cases h
      have hcontent := encodable_of_content hinside
      exact encodable_append (encodable_append (encodable_append (encodable_append
        (encodable_append (encodable_append hstart hclose) hcontent) (encodable_lineBreak _)) hend)
          (checkName_eq_ok_iff.mp hname)) hclose

theorem encodable_of_content {scope : Option String} {layout : Option Layout} :
    ∀ {nodes : List Node} {text : String}, content charset scope layout nodes = .ok text →
      Encodable charset text
  | [], text, h => by
    rw [content] at h
    cases h
    exact encodable_of_ascii (by decide)
  | .element child :: rest, text, h => by
    rw [content] at h
    obtain ⟨first, hfirst, h⟩ := Parsing.bind_eq_ok_iff.mp h
    obtain ⟨others, hothers, h⟩ := Parsing.bind_eq_ok_iff.mp h
    cases h
    exact encodable_append (encodable_append (encodable_lineBreak layout)
      (encodable_of_element hfirst)) (encodable_of_content hothers)
  | .text data :: rest, text, h => by
    rw [content] at h
    obtain ⟨others, hothers, h⟩ := Parsing.bind_eq_ok_iff.mp h
    cases h
    exact encodable_append (encodable_append (encodable_lineBreak layout)
      (encodable_escape false data)) (encodable_of_content hothers)
  | .comment data :: rest, text, h => by
    rw [content] at h
    obtain ⟨others, hothers, h⟩ := Parsing.bind_eq_ok_iff.mp h
    cases h
    have hopen : Encodable charset "<!--" := encodable_of_ascii (by decide)
    have hclose : Encodable charset "-->" := encodable_of_ascii (by decide)
    exact encodable_append (encodable_append (encodable_append (encodable_append
      (encodable_lineBreak layout) hopen) (encodable_commentText data)) hclose)
        (encodable_of_content hothers)

end

end Encodable

/-! ## Documents -/

/-- The strings in the document type declaration of a language belong to a character set. -/
def Language.DeclarableIn (language : Language) (charset : Charset) : Prop :=
  Encodable charset language.doctypeRoot ∧ Encodable charset language.fpi ∧
    Encodable charset language.dtd

theorem encodable_doctype {charset : Charset} {language : Language}
    (h : language.DeclarableIn charset) : Encodable charset (doctype language) := by
  have hstart : Encodable charset "<!DOCTYPE " := encodable_of_ascii (by decide)
  have hpublic : Encodable charset " PUBLIC \"" := encodable_of_ascii (by decide)
  have hbetween : Encodable charset "\" \"" := encodable_of_ascii (by decide)
  have hend : Encodable charset "\">" := encodable_of_ascii (by decide)
  obtain ⟨hroot, hfpi, hdtd⟩ := h
  exact encodable_append (encodable_append (encodable_append (encodable_append (encodable_append
    (encodable_append hstart hroot) hpublic) hfpi) hbetween) hdtd) hend

theorem encodable_xmlDeclaration (charset : Charset) : Encodable charset (xmlDeclaration charset) := by
  cases charset <;> exact encodable_of_ascii (by decide)

theorem encodable_of_text {options : DecodeOptions} {document : Document} {text : String}
    (hlanguage : options.language.DeclarableIn options.charset)
    (h : Writing.text options document = .ok text) : Encodable options.charset text := by
  obtain ⟨root, hroot, h⟩ := Parsing.bind_eq_ok_iff.mp h
  cases h
  exact encodable_append (encodable_append (encodable_append (encodable_append
    (encodable_xmlDeclaration _) (encodable_lineBreak _)) (encodable_doctype hlanguage))
      (encodable_lineBreak _)) (encodable_of_element hroot)

theorem encode_of_text {options : DecodeOptions} {document : Document} {text : String}
    (h : Writing.text options document = .ok text) :
    Utf8.encode text = prologBytes options.charset (Layout.of options) options.language
      (elementBytes options.charset none (document.root.laidOut (Layout.of options))) := by
  obtain ⟨root, hroot, h⟩ := Parsing.bind_eq_ok_iff.mp h
  cases h
  rw [element_laidOut] at hroot
  simp only [Utf8.encode_append, encode_of_element hroot, prologBytes, List.append_assoc]

theorem latin1_of_encodable {chars : List Char} (h : ∀ c ∈ chars, Charset.latin1.canEncode c = true) :
    latin1 chars = .ok (chars.map fun c => UInt8.ofNat c.toNat) := by
  induction chars with
  | nil => rfl
  | cons c chars ih =>
    have hc : c.toNat < 0x100 := of_decide_eq_true (h c List.mem_cons_self)
    rw [latin1, if_pos hc, ih fun d hd => h d (List.mem_cons_of_mem _ hd)]
    rfl

/-- The bytes of a text in ISO-8859-1 are the numbers of its characters. -/
theorem ofNat_latin1 {text : String} (h : Encodable .latin1 text) :
    (Charset.latin1.encode text).map (fun b => Char.ofNat b.toNat) = text.toList := by
  have hsame : (Charset.latin1.encode text).map (fun b => Char.ofNat b.toNat) =
      text.toList.map id := by
    rw [Charset.encode, List.map_map]
    refine List.map_congr_left fun c hc => ?_
    have hsmall : c.toNat < 0x100 := of_decide_eq_true (h c hc)
    rw [Function.comp_apply, Utf8.toNat_ofNat hsmall, Char.ofNat_toNat, id]
  rw [hsame, List.map_id]

theorem toUtf8_encode {charset : Charset} {text : String}
    (h : charset = .latin1 → Encodable .latin1 text) :
    charset.toUtf8 (charset.encode text) = Utf8.encode text := by
  cases charset with
  | utf8 => rfl
  | usAscii => rfl
  | latin1 => rw [Charset.toUtf8, ofNat_latin1 (h rfl), Utf8.encode]

/-- A document that has a text is written, if what stands in front of the root belongs to ISO-8859-1
where the document is written in that. -/
theorem writeDocument_of_text {options : DecodeOptions} {document : Document} {text : String}
    (hlatin1 : options.charset = .latin1 → options.language.DeclarableIn .latin1)
    (h : Writing.text options document = .ok text) :
    writeDocument options document = .ok (options.charset.encode text) ∧
      options.charset.toUtf8 (options.charset.encode text) = Utf8.encode text := by
  have hencodable : options.charset = .latin1 → Encodable .latin1 text :=
    fun hcharset => hcharset ▸ encodable_of_text (hcharset ▸ hlatin1 hcharset) h
  refine ⟨?_, toUtf8_encode hencodable⟩
  unfold writeDocument
  rw [h]
  cases hcharset : options.charset with
  | utf8 => rfl
  | usAscii => rfl
  | latin1 => exact latin1_of_encodable (hencodable hcharset)

/-- A document is written where the character set has its names. -/
theorem exists_writeDocument {options : DecodeOptions} {document : Document}
    (hnames : document.root.NamesEncodable options.charset)
    (hlatin1 : options.charset = .latin1 → options.language.DeclarableIn .latin1) :
    ∃ bytes, writeDocument options document = .ok bytes ∧ options.charset.toUtf8 bytes =
      prologBytes options.charset (Layout.of options) options.language
        (elementBytes options.charset none (document.root.laidOut (Layout.of options))) := by
  obtain ⟨text, htext⟩ := (checked_text options document).exists_ok (namesEncodable_iff.mp hnames)
  rw [← encode_of_text htext]
  exact ⟨_, writeDocument_of_text hlatin1 htext⟩

theorem exists_writeDocument_compact {options : DecodeOptions} {document : Document}
    (compact : options.form = .compact) (hnames : document.root.NamesEncodable options.charset)
    (hlatin1 : options.charset = .latin1 → options.language.DeclarableIn .latin1) :
    ∃ bytes, writeDocument options document = .ok bytes ∧ options.charset.toUtf8 bytes =
      prologBytes options.charset none options.language
        (elementBytes options.charset none document.root) := by
  have hwritten := exists_writeDocument hnames hlatin1
  rwa [Layout.of_compact compact, laidOut_none] at hwritten

theorem exists_writeDocument_utf8 {options : DecodeOptions} (utf8 : options.charset = .utf8)
    (document : Document) : ∃ bytes, writeDocument options document = .ok bytes := by
  have hnames : document.root.NamesEncodable options.charset :=
    utf8 ▸ namesEncodable_utf8 document.root
  obtain ⟨bytes, hbytes, -⟩ := exists_writeDocument hnames
    fun hlatin1 => absurd (utf8.symm.trans hlatin1) nofun
  exact ⟨bytes, hbytes⟩

/-! ## Why a document is not written -/

section Refused
variable {error : Error}

theorem kind_of_latin1 {chars : List Char} (h : latin1 chars = .error error) :
    error.kind = .decoding := by
  induction chars with
  | nil => cases h
  | cons c rest ih =>
    rw [latin1] at h
    split at h
    · cases hrest : latin1 rest with
      | ok bytes =>
        rw [hrest] at h
        cases h
      | error fault =>
        rw [hrest] at h
        cases h
        exact ih hrest
    · cases h
      rfl

/-- Only a name or a character that the character set lacks keeps a document from being written. -/
theorem kind_of_writeDocument {options : DecodeOptions} {document : Document}
    (h : writeDocument options document = .error error) : error.kind = .decoding := by
  unfold writeDocument at h
  rcases Parsing.bind_eq_error_iff.mp h with h | ⟨text, -, h⟩
  · by_cases hnames : ∀ name ∈ document.root.names, Encodable options.charset name
    · obtain ⟨text, htext⟩ := (checked_text options document).exists_ok hnames
      cases h.symm.trans htext
    · obtain ⟨name, -, -, hname⟩ := (checked_text options document).exists_error hnames
      cases h.symm.trans hname
      rfl
  · split at h
    · exact kind_of_latin1 h
    · cases h
    · cases h

end Refused

end BinaryXml
