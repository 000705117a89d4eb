import BinaryXml.Proofs.Xml.Depth
import BinaryXml.Proofs.Xml.Readable

/-! # What stands in front of the outermost element

* `IsLiteral`: a text that can stand between quotes and in a document type declaration.
* `starts_xmlDeclaration` and `starts_doctype`: the two declarations are one piece each.
* `parseDocument_written`: a written document is read if its document type declaration is admitted
  and there are enough levels.
-/

namespace BinaryXml

open Parsing (Outside Starts)
open Writing

set_option autoImplicit false

/-- A text without markup and quotes. -/
def IsLiteral (text : String) : Prop :=
  text ≠ "" ∧ ∀ c ∈ text.toList, c ∉ ['&', '<', '>', '"', '\'']

/-- The strings in the document type declaration of a language. -/
def Language.Declarable (language : Language) : Prop :=
  IsLiteral language.doctypeRoot ∧ IsLiteral language.fpi ∧ IsLiteral language.dtd

theorem ActiveSync.language_declarable : ActiveSync.language.Declarable := by
  unfold Language.Declarable IsLiteral
  decide

/-! ## Searching in declarations -/

namespace Markup

theorem cutBalanced_of_plain {bytes : Bytes} (h : ∀ b ∈ bytes, b ≠ 0x3C ∧ b ≠ 0x3E) (rest : Bytes) :
    cutBalanced 0 (bytes ++ 0x3E :: rest) = some (bytes, rest) := by
  induction bytes with
  | nil => rfl
  | cons b bytes ih =>
    obtain ⟨hopen, hclose⟩ := h b List.mem_cons_self
    have hrest := ih fun other hmem => h other (List.mem_cons_of_mem _ hmem)
    simp [cutBalanced, hopen, hclose, hrest]

theorem cut_isSome_of_infix (delimiter before behind : Bytes) :
    (cut delimiter (before ++ (delimiter ++ behind))).isSome = true := by
  induction before with
  | nil =>
    cases delimiter with
    | nil => cases behind <;> rfl
    | cons b delimiter => simp [cut, List.isPrefixOf_iff_prefix]
  | cons b before ih =>
    rw [List.cons_append, cut]
    split
    · rfl
    · rwa [Option.isSome_map]

theorem isSpace_of_large {b : UInt8} (h : 0x80 ≤ b) : isSpace b = false := by
  cases hspace : isSpace b with
  | false => rfl
  | true =>
    simp only [isSpace, Bool.or_eq_true, beq_iff_eq] at hspace
    rcases hspace with ((rfl | rfl) | rfl) | rfl <;> exact absurd h (by decide)

/-- What is left of a text without the white space at its start is a text. -/
theorem dropWhile_isSpace_encodeChars (chars : List Char) :
    ∃ text, (Utf8.encodeChars chars).dropWhile isSpace = Utf8.encode text := by
  induction chars with
  | nil => exact ⟨"", rfl⟩
  | cons c chars ih =>
    have hwhole (h : (Utf8.encodeChars (c :: chars)).dropWhile isSpace =
        Utf8.encodeChars (c :: chars)) :
        ∃ text, (Utf8.encodeChars (c :: chars)).dropWhile isSpace = Utf8.encode text :=
      ⟨String.ofList (c :: chars), by rw [h, Utf8.encode, String.toList_ofList]⟩
    have hbytes : Utf8.encodeChars (c :: chars) =
        String.utf8EncodeChar c ++ Utf8.encodeChars chars := rfl
    by_cases hsmall : c.toNat < 0x80
    · rw [Utf8.encodeChar_of_ascii hsmall, List.singleton_append] at hbytes
      by_cases hspace : isSpace (UInt8.ofNat c.toNat) = true
      · rw [hbytes, List.dropWhile_cons_of_pos hspace]
        exact ih
      · exact hwhole (by rw [hbytes, List.dropWhile_cons_of_neg hspace])
    · obtain ⟨b, bytes, hfirst⟩ : ∃ b bytes, String.utf8EncodeChar c = b :: bytes :=
        List.exists_cons_of_ne_nil (by simp)
      have hlarge := Utf8.le_of_mem_encodeChar (Nat.le_of_not_lt hsmall)
        (hfirst ▸ List.mem_cons_self)
      rw [hfirst, List.cons_append] at hbytes
      exact hwhole (by rw [hbytes, List.dropWhile_cons_of_neg (by simp [isSpace_of_large hlarge])])

end Markup

/-! ## The two declarations -/

namespace Writing

theorem encode_xmlDeclaration (charset : Charset) : ∃ bytes,
    Utf8.encode (xmlDeclaration charset) = 0x3C :: 0x3F :: bytes ∧
      Markup.instructed bytes = some (.declaration, []) := by
  cases charset with
  | utf8 => exact ⟨Utf8.encode "xml version=\"1.0\"?>", rfl, by decide +kernel⟩
  | usAscii =>
    exact ⟨Utf8.encode "xml version=\"1.0\" encoding=\"US-ASCII\"?>", rfl, by decide +kernel⟩
  | latin1 =>
    exact ⟨Utf8.encode "xml version=\"1.0\" encoding=\"ISO-8859-1\"?>", rfl, by decide +kernel⟩

theorem starts_xmlDeclaration (charset : Charset) (rest : Bytes) :
    Starts (Utf8.encode (xmlDeclaration charset) ++ rest) .declaration rest := by
  obtain ⟨bytes, hbytes, hinstructed⟩ := encode_xmlDeclaration charset
  obtain ⟨front, rfl, hfront, -⟩ := Markup.instructed_front hinstructed
  rw [hbytes, List.append_nil, List.cons_append, List.cons_append]
  exact ⟨List.cons_ne_nil _ _, (Markup.next_instructed _).trans (hfront rest)⟩

/-- What a document type declaration says behind the root that it names, up to the quotes around
the public identifier. -/
def doctypeRest (language : Language) : Bytes :=
  Utf8.encode "PUBLIC \"" ++ (Utf8.encode language.fpi ++
    Utf8.encode ("\" \"" ++ language.dtd ++ "\""))

/-- What is read of the document type declaration of a language. -/
def doctypeData (language : Language) : Bytes :=
  (Utf8.encode (" " ++ language.doctypeRoot ++ " ") ++ doctypeRest language).dropWhile Markup.isSpace

theorem encode_doctype (language : Language) : Utf8.encode (doctype language) =
    0x3C :: 0x21 :: (Utf8.encode "DOCTYPE" ++ (Utf8.encode (" " ++ language.doctypeRoot ++ " ") ++
      doctypeRest language) ++ [0x3E]) := by
  have hend : Utf8.encode "\">" = Utf8.encode "\"" ++ [0x3E] := rfl
  have hpublic : Utf8.encode " PUBLIC \"" = Utf8.encode " " ++ Utf8.encode "PUBLIC \"" := rfl
  have hstart : Utf8.encode "<!DOCTYPE " =
      0x3C :: 0x21 :: (Utf8.encode "DOCTYPE" ++ Utf8.encode " ") := rfl
  unfold doctype doctypeRest
  simp only [Utf8.encode_append, hend, hpublic, hstart, List.append_assoc, List.cons_append]

theorem isLiteral_bytes {text : String} (h : IsLiteral text) :
    ∀ b ∈ Utf8.encode text, b ≠ 0x3C ∧ b ≠ 0x3E := by
  intro b hb
  constructor
  · rintro rfl
    exact h.2 _ ((Utf8.mem_encode_iff (by decide) _).mp hb) (by decide)
  · rintro rfl
    exact h.2 _ ((Utf8.mem_encode_iff (by decide) _).mp hb) (by decide)

theorem doctype_bytes {language : Language} (declarable : language.Declarable) :
    ∀ b ∈ Utf8.encode "DOCTYPE" ++ (Utf8.encode (" " ++ language.doctypeRoot ++ " ") ++
      doctypeRest language), b ≠ 0x3C ∧ b ≠ 0x3E := by
  have hkeyword : ∀ b ∈ Utf8.encode "DOCTYPE", b ≠ 0x3C ∧ b ≠ 0x3E := by decide
  have hpublic : ∀ b ∈ Utf8.encode "PUBLIC \"", b ≠ 0x3C ∧ b ≠ 0x3E := by decide
  have hbetween : ∀ b ∈ Utf8.encode "\" \"", b ≠ 0x3C ∧ b ≠ 0x3E := by decide
  have hquote : ∀ b ∈ Utf8.encode "\"", b ≠ 0x3C ∧ b ≠ 0x3E := by decide
  have hspace : ∀ b ∈ Utf8.encode " ", b ≠ 0x3C ∧ b ≠ 0x3E := by decide
  obtain ⟨hroot, hfpi, hdtd⟩ := declarable
  intro b hb
  simp only [doctypeRest, Utf8.encode_append, List.mem_append] at hb
  rcases hb with hb | ((hb | hb) | hb) | hb | hb | (hb | hb) | hb
  · exact hkeyword b hb
  · exact hspace b hb
  · exact isLiteral_bytes hroot b hb
  · exact hspace b hb
  · exact hpublic b hb
  · exact isLiteral_bytes hfpi b hb
  · exact hbetween b hb
  · exact isLiteral_bytes hdtd b hb
  · exact hquote b hb

/-- White space goes from the start of the root only. -/
theorem doctypeData_eq (language : Language) :
    ∃ text, doctypeData language = Utf8.encode text ++ doctypeRest language := by
  obtain ⟨text, htext⟩ := Markup.dropWhile_isSpace_encodeChars
    (" " ++ language.doctypeRoot ++ " ").toList
  refine ⟨text, ?_⟩
  have hfront : (Utf8.encode (" " ++ language.doctypeRoot ++ " ")).dropWhile Markup.isSpace =
      Utf8.encode text := htext
  have hrest : (doctypeRest language).dropWhile Markup.isSpace = doctypeRest language := rfl
  rw [doctypeData, List.dropWhile_append, hfront, hrest]
  split
  · rename_i hempty
    rw [List.isEmpty_iff.mp hempty, List.nil_append]
  · rfl

theorem starts_doctype {language : Language} (declarable : language.Declarable) (rest : Bytes) :
    Starts (Utf8.encode (doctype language) ++ rest) (.doctype (doctypeData language)) rest := by
  have hcut := Markup.cutBalanced_of_plain (doctype_bytes declarable) rest
  have hnonempty : (doctypeData language).isEmpty = false := by
    obtain ⟨text, htext⟩ := doctypeData_eq language
    rw [htext]
    cases Utf8.encode text <;> rfl
  have hkeyword : ((Utf8.encode "DOCTYPE").map Markup.declared.upper ==
      Markup.ascii "DOCTYPE") = true := by decide
  have hlength : (Markup.ascii "DOCTYPE").length = (Utf8.encode "DOCTYPE").length := rfl
  rw [encode_doctype, List.cons_append, List.cons_append, List.append_assoc, List.singleton_append]
  refine ⟨List.cons_ne_nil _ _, (Markup.next_declared _).trans ?_⟩
  unfold doctypeData at hnonempty ⊢
  generalize Utf8.encode (" " ++ language.doctypeRoot ++ " ") ++ doctypeRest language = said at *
  have hother : Markup.declared (Utf8.encode "DOCTYPE" ++ said ++ 0x3E :: rest) =
      (Markup.cutBalanced 0 (Utf8.encode "DOCTYPE" ++ said ++ 0x3E :: rest)).bind fun found =>
        if (found.1.take (Markup.ascii "DOCTYPE").length).map Markup.declared.upper ==
            Markup.ascii "DOCTYPE" &&
          !((found.1.drop (Markup.ascii "DOCTYPE").length).dropWhile Markup.isSpace).isEmpty then
          some (.doctype ((found.1.drop (Markup.ascii "DOCTYPE").length).dropWhile Markup.isSpace),
            found.2)
        else none := rfl
  rw [hother, hcut, Option.bind_some, hlength, List.take_left, List.drop_left, hkeyword, hnonempty]
  rfl

/-- A language admits the declaration that it writes. -/
theorem checkDoctype_doctypeData (language : Language) :
    Parsing.checkDoctype language (doctypeData language) = .ok () := by
  obtain ⟨text, htext⟩ := doctypeData_eq language
  have hbytes : doctypeData language = Utf8.encode (text ++ "PUBLIC \"" ++ language.fpi ++
      ("\" \"" ++ language.dtd ++ "\"")) := by
    simp only [htext, doctypeRest, Utf8.encode_append, List.append_assoc]
  rw [hbytes]
  refine Parsing.bind_eq_ok_iff.mpr ⟨_, Parsing.utf8_encode _, ?_⟩
  have hfound := Markup.cut_isSome_of_infix (Utf8.encode language.fpi)
    (Utf8.encode (text ++ "PUBLIC \"")) (Utf8.encode ("\" \"" ++ language.dtd ++ "\""))
  rw [← Utf8.encode_append, ← Utf8.encode_append, ← String.append_assoc] at hfound
  unfold Parsing.admitsDoctype
  rw [hfound, Bool.or_true, if_pos rfl]

/-! ## Breaks between declarations -/

theorem isBlankText_lineBreak (layout : Option Layout) :
    Blank.isBlankText (lineBreak layout) = true := by
  have hspaces (count : Nat) : (List.replicate count ' ').all Blank.isBlank = true := by
    simp [Blank.isBlank]
  cases layout with
  | none => rfl
  | some layout =>
    rw [Blank.isBlankText, lineBreak, String.toList_ofList, List.all_cons, hspaces]
    rfl

theorem starts_lineBreak (layout : Layout) {tail rest : Bytes} (htail : tail = 0x3C :: rest) :
    Starts (Utf8.encode (lineBreak (some layout)) ++ tail)
      (.text (Utf8.encode (lineBreak (some layout)))) tail := by
  refine Parsing.starts_text ?_ ?_ htail rfl
  · intro hempty
    have hlist := congrArg String.toList hempty
    rw [lineBreak, String.toList_ofList] at hlist
    cases hlist
  · intro b hb
    have hmem (b : UInt8) (hsmall : b < 0x80) (hb : b ∈ Utf8.encode (lineBreak (some layout))) :
        Blank.isBlank (Char.ofNat b.toNat) = true :=
      List.all_eq_true.mp (isBlankText_lineBreak (some layout)) _ ((Utf8.mem_encode_iff hsmall _).mp hb)
    simp only [Markup.isText, Bool.and_eq_true, bne_iff_ne]
    constructor
    · rintro rfl
      exact absurd (hmem _ (by decide) hb) (by decide)
    · rintro rfl
      exact absurd (hmem _ (by decide) hb) (by decide)

/-- The bytes of a document: the declarations, each with the break behind it, and the outermost
element. -/
def prologBytes (charset : Charset) (layout : Option Layout) (language : Language) : Bytes → Bytes :=
  fun tail => Utf8.encode (xmlDeclaration charset) ++ (Utf8.encode (lineBreak layout) ++
    (Utf8.encode (doctype language) ++ (Utf8.encode (lineBreak layout) ++ tail)))

theorem Layout.of_compact {options : DecodeOptions} (compact : options.form = .compact) :
    Layout.of options = none := by
  unfold Layout.of
  rw [compact]

end Writing

/-! ## Reading the declarations -/

namespace Parsing

section Outside
variable {context : Context} {root : Option Element} {text tail rest : Bytes} {element : Element}

theorem outside_lineBreak_iff (layout : Option Layout) (htail : tail = 0x3C :: rest) :
    Outside context root (Utf8.encode (lineBreak layout) ++ tail) element ↔
      Outside context root tail element := by
  cases layout with
  | none => exact Iff.rfl
  | some layout =>
    rw [outside_characters_iff (starts_lineBreak layout htail) rfl, utf8_encode]
    constructor
    · rintro ⟨_, -, -, others⟩
      exact others
    · exact fun others => ⟨_, rfl, isBlankText_lineBreak (some layout), others⟩

/-! A fault is only seen by the reader itself, which takes the pieces one by one. -/

theorem outside_of_declaration (starts : Starts text .declaration rest) (bound : Nat) :
    outside context (bound + 1) root text = outside context bound root rest := by
  obtain ⟨hne, hnext⟩ := starts
  obtain ⟨b, bytes, rfl⟩ := List.exists_cons_of_ne_nil hne
  rw [outside, hnext]
  rfl

theorem outside_of_lineBreak (layout : Layout) (htail : tail = 0x3C :: rest) (bound : Nat) :
    outside context (bound + 1) root (Utf8.encode (lineBreak (some layout)) ++ tail) =
      outside context bound root tail := by
  obtain ⟨hne, hnext⟩ := starts_lineBreak layout htail
  obtain ⟨b, bytes, htext⟩ := List.exists_cons_of_ne_nil hne
  rw [htext] at hnext ⊢
  rw [outside, hnext, required]
  dsimp only [bind, Except.bind]
  rw [utf8_encode]
  dsimp only
  rw [checkBlank, if_pos (isBlankText_lineBreak (some layout))]

theorem outside_of_doctype {data : Bytes} {error : Error} (starts : Starts text (.doctype data) rest)
    (h : checkDoctype context.language data = .error error) (bound : Nat) :
    outside context (bound + 1) none text = .error error := by
  obtain ⟨hne, hnext⟩ := starts
  obtain ⟨b, bytes, rfl⟩ := List.exists_cons_of_ne_nil hne
  rw [outside, hnext, required]
  dsimp only [bind, Except.bind]
  rw [h]
  rfl

variable {charset : Charset} {layout : Option Layout} {language : Language}

theorem outside_prolog_iff (declarable : language.Declarable) (htail : tail = 0x3C :: rest) :
    Outside context none (prologBytes charset layout language tail) element ↔
      checkDoctype context.language (doctypeData language) = .ok () ∧
        Outside context none tail element := by
  have hdoctype : ∃ bytes, Utf8.encode (doctype language) ++
      (Utf8.encode (lineBreak layout) ++ tail) = 0x3C :: bytes := by
    rw [encode_doctype]
    exact ⟨_, rfl⟩
  obtain ⟨bytes, hbytes⟩ := hdoctype
  rw [prologBytes, outside_passed_iff (starts_xmlDeclaration charset _) rfl,
    outside_lineBreak_iff layout hbytes, outside_doctype_iff (starts_doctype declarable _),
    outside_lineBreak_iff layout htail]
  simp

theorem outside_prolog_error {error : Error} (declarable : language.Declarable)
    (h : checkDoctype context.language (doctypeData language) = .error error) (tail : Bytes)
    (bound : Nat) :
    outside context (bound + 3) none (prologBytes charset layout language tail) = .error error := by
  have hdoctype := starts_doctype declarable (Utf8.encode (lineBreak layout) ++ tail)
  rw [prologBytes, outside_of_declaration (starts_xmlDeclaration charset _)]
  cases layout with
  | none =>
    rw [encode_lineBreak, List.nil_append] at hdoctype ⊢
    exact outside_of_doctype hdoctype h (bound + 1)
  | some layout =>
    obtain ⟨bytes, hbytes⟩ : ∃ bytes, Utf8.encode (doctype language) ++
        (Utf8.encode (lineBreak (some layout)) ++ tail) = 0x3C :: bytes := by
      rw [encode_doctype]
      exact ⟨_, rfl⟩
    rw [outside_of_lineBreak layout hbytes]
    exact outside_of_doctype hdoctype h bound

end Outside

end Parsing

/-! ## Documents -/

/-- There is no mark of the encoding. -/
theorem unmarked (charset : Charset) (rest : Bytes) :
    (Markup.after byteOrderMark (Utf8.encode (xmlDeclaration charset) ++ rest)).getD
      (Utf8.encode (xmlDeclaration charset) ++ rest) =
        Utf8.encode (xmlDeclaration charset) ++ rest := by
  obtain ⟨bytes, hbytes, -⟩ := encode_xmlDeclaration charset
  have hafter (bytes : Bytes) : Markup.after byteOrderMark (0x3C :: bytes) = none := rfl
  rw [hbytes, List.cons_append, hafter, Option.getD_none]

section Documents
variable {charset : Charset} {layout : Option Layout} {language : Language} {root : Element}

theorem unmarked_prolog (charset : Charset) (layout : Option Layout) (language : Language)
    (tail : Bytes) :
    (Markup.after byteOrderMark (prologBytes charset layout language tail)).getD
      (prologBytes charset layout language tail) = prologBytes charset layout language tail :=
  unmarked charset _

theorem length_prologBytes (tail : Bytes) :
    3 ≤ (prologBytes charset layout language tail).length := by
  have hkeyword : (Utf8.encode "DOCTYPE").length = 7 := rfl
  simp only [prologBytes, encode_doctype, List.length_append, List.length_cons, hkeyword]
  omega

/-- A document type declaration that is not admitted is the first fault. -/
theorem parseDocument_of_refused {reader : Language} {error : Error}
    (declarable : language.Declarable)
    (h : Parsing.checkDoctype reader (doctypeData language) = .error error) (maxDepth : Nat)
    (tail : Bytes) :
    parseDocument reader maxDepth (prologBytes charset layout language tail) = .error error := by
  have hlength : 3 ≤ (prologBytes charset layout language tail).length := length_prologBytes tail
  have hunmarked := unmarked_prolog charset layout language tail
  have hrefused (context : Parsing.Context)
      (h : Parsing.checkDoctype context.language (doctypeData language) = .error error)
      (bound : Nat) : Parsing.outside context (bound + 3) none
        (prologBytes charset layout language tail) = .error error :=
    Parsing.outside_prolog_error declarable h tail bound
  -- The reader looks at the length of the text, which must not be computed.
  generalize prologBytes charset layout language tail = text at *
  obtain ⟨bound, hbound⟩ := Nat.exists_eq_add_of_le' hlength
  unfold parseDocument
  dsimp only
  rw [hunmarked, hbound, hrefused ⟨reader, maxDepth⟩ h]
  rfl

theorem parseDocument_of_admitted {reader : Language} (declarable : language.Declarable)
    (h : Parsing.checkDoctype reader (doctypeData language) = .ok ()) (readable : root.Readable)
    (commented : root.Commented) :
    parseDocument reader root.levels (prologBytes charset layout language
      (elementBytes charset none root)) = .ok ⟨(root.condensed charset).readAs charset none⟩ := by
  obtain ⟨bytes, htail⟩ := elementBytes_head charset none root
  have isElement : Parsing.IsElement ⟨reader, root.levels⟩ Scope.initial 0
      (elementBytes charset none root ++ []) ((root.condensed charset).readAs charset none) [] :=
    isElement_readAs [] readable commented holds_initial (Nat.le_of_eq (Nat.zero_add _))
  rw [List.append_nil] at isElement
  rw [parseDocument_eq_ok_iff, unmarked_prolog, Parsing.outside_prolog_iff declarable htail]
  exact ⟨h, .root isElement .finish⟩

/-- A written document is read as far as it can be told from what is written, with the namespaces
that hold, if its document type declaration is admitted and its levels are allowed. -/
theorem parseDocument_written (declarable : language.Declarable) (readable : root.Readable)
    (commented : root.Commented) (reader : Language) (maxDepth : Nat) :
    parseDocument reader maxDepth (prologBytes charset layout language
        (elementBytes charset none root)) =
      (Parsing.checkDoctype reader (doctypeData language)).bind fun _ =>
        if root.levels ≤ maxDepth then .ok ⟨(root.condensed charset).readAs charset none⟩
        else .error (.tooDeep maxDepth) := by
  cases hchecked : Parsing.checkDoctype reader (doctypeData language) with
  | error error => exact parseDocument_of_refused declarable hchecked maxDepth _
  | ok _ =>
    rw [parseDocument_of_limit (parseDocument_of_admitted declarable hchecked readable commented),
      levels_readAs, levels_condensed]
    rfl

/-- A neat document is read as it is. -/
theorem parseDocument_prolog (declarable : language.Declarable) (readable : root.Readable)
    (neat : root.Neat charset) (reader : Language) (maxDepth : Nat) :
    parseDocument reader maxDepth (prologBytes charset layout language
        (elementBytes charset none root)) =
      (Parsing.checkDoctype reader (doctypeData language)).bind fun _ =>
        if root.levels ≤ maxDepth then .ok ⟨root.readAs charset none⟩
        else .error (.tooDeep maxDepth) := by
  rw [parseDocument_written declarable readable (commented_of_neat neat) reader maxDepth,
    condensed_of_neat neat]

end Documents

end BinaryXml
