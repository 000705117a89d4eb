import BinaryXml.Language.ActiveSync
import BinaryXml.Proofs.Xml.Transcoding

/-! # Character sets of written documents

* `Reference.restore`: character data with the characters that references to them stand in for.
* `restore_escape`: character data differs from that in UTF-8 in these references only.
* `written_in_charset`: a document is written where its character set has its names, and nothing
  outside of the character set is written.
-/

namespace BinaryXml

set_option autoImplicit false

/-! ## References to characters outside of a character set -/

namespace Reference

/-- The character outside of a character set whose number the name of a reference is. -/
def foreign? (charset : Charset) : List Char → Option Char
  | '#' :: 'x' :: digits =>
    ((Numeral.readDigits 16 digits).bind Scalar.char?).filter (!charset.canEncode ·)
  | _ => none

/-- The rest of a text with the characters outside of a character set in place of the references to
them, inside a reference of which the characters of `name` have been read. -/
def restoreFrom (charset : Charset) : Option (List Char) → List Char → List Char
  | none, [] => []
  | some name, [] => '&' :: name
  | none, c :: rest =>
    if c = '&' then restoreFrom charset (some []) rest else c :: restoreFrom charset none rest
  | some name, c :: rest =>
    if c = ';' then
      (match foreign? charset name with
        | some resolved => [resolved]
        | none => '&' :: (name ++ [';'])) ++ restoreFrom charset none rest
    else if c = '&' then '&' :: (name ++ restoreFrom charset (some []) rest)
    else restoreFrom charset (some (name ++ [c])) rest

/-- A text with the characters outside of a character set in place of the references to them. -/
def restore (charset : Charset) (text : String) : String :=
  String.ofList (restoreFrom charset none text.toList)

section Restore
variable {charset : Charset} {c : Char} {name : List Char}

theorem foreign?_predefined (h : predefined? name = some c) : foreign? charset name = none := by
  unfold foreign?
  split
  · cases h
  · rfl

theorem foreign?_digits (h : charset.canEncode c ≠ true) :
    foreign? charset ('#' :: 'x' :: Numeral.digits 16 c.toNat) = some c := by
  rw [foreign?, Numeral.readDigits_digits, Option.bind_some, char?_toNat, Option.filter_some,
    if_pos (by simpa using h)]

theorem restoreFrom_plain (h : c ≠ '&') (rest : List Char) :
    restoreFrom charset none (c :: rest) = c :: restoreFrom charset none rest := by
  rw [restoreFrom, if_neg h]

/-- A reference inside of which characters of its name follow. -/
theorem restoreFrom_name {read : List Char} (h : ∀ d ∈ name, d ≠ ';' ∧ d ≠ '&')
    (rest : List Char) : restoreFrom charset (some read) (name ++ rest) =
      restoreFrom charset (some (read ++ name)) rest := by
  induction name generalizing read with
  | nil => simp
  | cons c name ih =>
    obtain ⟨hend, hamp⟩ := h c List.mem_cons_self
    rw [List.cons_append, restoreFrom, if_neg hend, if_neg hamp,
      ih fun d hd => h d (List.mem_cons_of_mem _ hd), List.append_assoc, List.singleton_append]

theorem restoreFrom_reference (names : Names name c) (rest : List Char) :
    restoreFrom charset none ('&' :: (name ++ [';']) ++ rest) =
      (match foreign? charset name with
        | some resolved => [resolved]
        | none => '&' :: (name ++ [';'])) ++ restoreFrom charset none rest := by
  rw [List.cons_append, restoreFrom, if_pos rfl, List.append_assoc,
    restoreFrom_name names.undelimited, List.nil_append, List.singleton_append, restoreFrom,
    if_pos rfl]

end Restore

end Reference

namespace Writing
open Reference

theorem escapeForeign_utf8 (c : Char) : escapeForeign .utf8 c = [c] := rfl

/-- A character is restored to what it is in UTF-8, whatever follows. -/
theorem restoreFrom_escapeChar (charset : Charset) (inAttribute : Bool) (c : Char)
    (rest : List Char) : restoreFrom charset none (escapeChar charset inAttribute c ++ rest) =
      escapeChar .utf8 inAttribute c ++ restoreFrom charset none rest := by
  unfold escapeChar
  rcases escapeMarkup_cases inAttribute c with ⟨hsame, hplain, -⟩ | ⟨name, hname, hpredefined⟩
  · have hamp : c ≠ '&' := by
      rintro rfl
      simp at hplain
    rw [hsame, List.flatMap_singleton, List.flatMap_singleton, escapeForeign_utf8]
    by_cases hencode : charset.canEncode c = true
    · rw [escapeForeign, if_pos hencode]
      exact restoreFrom_plain hamp rest
    · have hnames := names_digits (le_toNat_of_foreign hencode)
      rw [escapeForeign, if_neg hencode]
      exact (restoreFrom_reference hnames rest).trans (by rw [foreign?_digits hencode])
  · have hnames := names_predefined hpredefined
    rw [hname, flatMap_escapeForeign charset hnames.ascii, flatMap_escapeForeign .utf8 hnames.ascii,
      restoreFrom_reference hnames, foreign?_predefined hpredefined]

/-- Character data differs from that in UTF-8 in the references to foreign characters only. -/
theorem restore_escape (charset : Charset) (inAttribute : Bool) (data : String) :
    restore charset (escape charset inAttribute data) = escape .utf8 inAttribute data := by
  have hchars (chars : List Char) : restoreFrom charset none
      (chars.flatMap (escapeChar charset inAttribute)) =
        chars.flatMap (escapeChar .utf8 inAttribute) := by
    induction chars with
    | nil => rfl
    | cons c chars ih => rw [List.flatMap_cons, restoreFrom_escapeChar, ih, List.flatMap_cons]
  refine String.toList_inj.mp ?_
  rw [restore, String.toList_ofList, toList_escape, hchars, toList_escape]

end Writing

/-! ## Documents -/

section Documents
variable {options : DecodeOptions} {document : Document}

/-- ASCII characters belong to every character set. -/
theorem Encodable.of_usAscii {charset : Charset} {text : String} (h : Encodable .usAscii text) :
    Encodable charset text :=
  encodable_of_ascii fun c hc => of_decide_eq_true (h c hc)

theorem Language.DeclarableIn.of_usAscii {charset : Charset} {language : Language}
    (h : language.DeclarableIn .usAscii) : language.DeclarableIn charset :=
  ⟨h.1.of_usAscii, h.2.1.of_usAscii, h.2.2.of_usAscii⟩

theorem lt_of_mem_encode {text : String} (h : Encodable .usAscii text) {b : UInt8}
    (hb : b ∈ Utf8.encode text) : b < 0x80 := by
  obtain ⟨c, hc, hbyte⟩ := List.mem_flatMap.mp hb
  have hsmall : c.toNat < 0x80 := of_decide_eq_true (h c hc)
  rw [Utf8.encodeChar_of_ascii hsmall, List.mem_singleton] at hbyte
  subst hbyte
  rw [UInt8.lt_iff_toNat_lt, Utf8.toNat_ofNat (by omega)]
  exact hsmall

/-- A document is written exactly where its character set has all names, and a name is the error
where it is not. Of what is written nothing is outside of the character set, and character data
differs from that in UTF-8 in the references to foreign characters only. -/
theorem written_in_charset (ascii : options.language.DeclarableIn .usAscii)
    (document : Document) :
    ((∃ bytes, writeDocument options document = .ok bytes) ↔
        ∀ name ∈ document.root.names, Encodable options.charset name) ∧
      ((¬ ∀ name ∈ document.root.names, Encodable options.charset name) →
        ∃ name ∈ document.root.names, ¬ Encodable options.charset name ∧
          writeDocument options document =
            .error (.decoding (.unwritableName name options.charset))) ∧
      (∀ text, Writing.text options document = .ok text → Encodable options.charset text) ∧
      (options.charset = .usAscii → ∀ bytes, writeDocument options document = .ok bytes →
        ∀ b ∈ bytes, b < 0x80) ∧
      (options.charset = .latin1 → ∀ text, Writing.text options document = .ok text →
        ∃ bytes, Writing.latin1 text.toList = .ok bytes ∧
          writeDocument options document = .ok bytes ∧ bytes.length = text.length ∧
          bytes.map (fun b => Char.ofNat b.toNat) = text.toList) ∧
      ∀ inAttribute data, Reference.restore options.charset
        (Writing.escape options.charset inAttribute data) =
          Writing.escape .utf8 inAttribute data := by
  have hwritten {text : String} (htext : Writing.text options document = .ok text) :
      writeDocument options document = .ok (options.charset.encode text) :=
    (writeDocument_of_text (fun _ => ascii.of_usAscii) htext).1
  have hencodable {text : String} (htext : Writing.text options document = .ok text) :
      Encodable options.charset text := encodable_of_text ascii.of_usAscii htext
  have hchecked := checked_text options document
  have hrefused (hnames : ¬ ∀ name ∈ document.root.names, Encodable options.charset name) :
      ∃ name ∈ document.root.names, ¬ Encodable options.charset name ∧
        writeDocument options document =
          .error (.decoding (.unwritableName name options.charset)) := by
    obtain ⟨name, hmem, hforeign, htext⟩ := hchecked.exists_error hnames
    exact ⟨name, hmem, hforeign, by rw [writeDocument, htext]; rfl⟩
  refine ⟨⟨?_, ?_⟩, hrefused, fun text htext => hencodable htext, ?_, ?_,
    fun inAttribute data => Writing.restore_escape _ inAttribute data⟩
  · rintro ⟨bytes, hbytes⟩
    by_contra hnames
    obtain ⟨name, -, -, hname⟩ := hrefused hnames
    cases hbytes.symm.trans hname
  · intro hnames
    obtain ⟨text, htext⟩ := hchecked.exists_ok hnames
    exact ⟨_, hwritten htext⟩
  · intro hcharset bytes hbytes b hb
    obtain ⟨text, htext, -⟩ := Parsing.bind_eq_ok_iff.mp hbytes
    have hsame : bytes = options.charset.encode text :=
      Except.ok.inj (hbytes.symm.trans (hwritten htext))
    rw [hsame, hcharset] at hb
    exact lt_of_mem_encode (hcharset ▸ hencodable htext) hb
  · intro hcharset text htext
    have hlatin1 : Encodable .latin1 text := hcharset ▸ hencodable htext
    refine ⟨Charset.latin1.encode text, latin1_of_encodable hlatin1,
      hcharset ▸ hwritten htext, List.length_map _, ofNat_latin1 hlatin1⟩

/-- An element with a namespace, an attribute, a text and a comment outside of US-ASCII. -/
def foreignDocument : Document :=
  ⟨⟨"Note", some "Pr\u00FCfung:", [⟨"title", "caf\u00E9"⟩],
    [.text "20 \u20AC < 30 \u20AC", .comment "\u00E9"]⟩⟩

theorem written_in_charset_foreignDocument :
    let options : DecodeOptions := { charset := .usAscii }
    options.language.DeclarableIn .usAscii ∧
      ∃ bytes, writeDocument options foreignDocument = .ok bytes ∧ ∀ b ∈ bytes, b < 0x80 := by
  intro options
  have ascii : options.language.DeclarableIn .usAscii :=
    ⟨encodable_of_ascii (by decide), encodable_of_ascii (by decide),
      encodable_of_ascii (by decide)⟩
  have hnames : ∀ name ∈ foreignDocument.root.names, Encodable options.charset name := by
    unfold Encodable
    decide
  obtain ⟨written, -, -, small, -⟩ := written_in_charset ascii foreignDocument
  obtain ⟨bytes, hbytes⟩ := written.mpr hnames
  exact ⟨ascii, bytes, hbytes, small rfl bytes hbytes⟩

end Documents

end BinaryXml
