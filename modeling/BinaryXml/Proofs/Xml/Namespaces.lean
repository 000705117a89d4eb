import BinaryXml.Conversion
import BinaryXml.Proofs.Document.Paths
import BinaryXml.Proofs.Xml.RoundTrip

/-! # Namespaces that are written and read

* `Namespace.same_escape_iff`: a namespace that is written with references is another one.
* `Namespace.forall_isPlainChar_of_same`: whether references are needed does not depend on the
  spelling.
* `Namespace.forall_pageOfUri?_iff`: namespaces that are the same belong to the same code pages.
* `Namespace.ReadBack`: what is read in place of a namespace.
* `readBack_of_writeDocument`: this is read of every element with a namespace in every document.
-/

namespace BinaryXml

open Writing

set_option autoImplicit false

/-! ## Spellings -/

namespace Namespace

/-- The characters of a name without the colons at its end. -/
def trimmed (chars : List Char) : List Char :=
  (chars.reverse.dropWhile (· == ':')).reverse

theorem trimmed_concat (chars : List Char) (c : Char) :
    trimmed (chars ++ [c]) = if c = ':' then trimmed chars else chars ++ [c] := by
  rw [trimmed, List.reverse_append, List.reverse_singleton, List.singleton_append]
  split
  · rename_i hcolon
    rw [List.dropWhile_cons_of_pos (by simp [hcolon])]
    rfl
  · rename_i hother
    rw [List.dropWhile_cons_of_neg (by simpa using hother), List.reverse_cons, List.reverse_reverse]

theorem same_iff {first second : String} : same first second = true ↔
    (trimmed first.toList).map Char.toLower = (trimmed second.toList).map Char.toLower := by
  unfold same key lowerAscii
  simp only [beq_iff_eq, String.ofList_inj, String.toList_ofList]
  exact Iff.rfl

theorem same_refl (space : String) : same space space = true := same_iff.mpr rfl

theorem same_comm {first second : String} (h : same first second = true) :
    same second first = true :=
  same_iff.mpr (same_iff.mp h).symm

theorem same_trans {first second third : String} (h : same first second = true)
    (h' : same second third = true) : same first third = true :=
  same_iff.mpr ((same_iff.mp h).trans (same_iff.mp h'))

theorem mem_of_mem_trimmed {chars : List Char} {c : Char} (h : c ∈ trimmed chars) : c ∈ chars :=
  List.mem_reverse.mp (List.dropWhile_subset _ (List.mem_reverse.mp h))

/-- Only colons are trimmed. -/
theorem mem_trimmed_iff {chars : List Char} {c : Char} (h : c ≠ ':') :
    c ∈ trimmed chars ↔ c ∈ chars := by
  induction chars using List.reverseRecOn with
  | nil => rfl
  | append_singleton chars d ih =>
    rw [trimmed_concat]
    split
    · rename_i hcolon
      rw [ih, List.mem_append, List.mem_singleton, or_iff_left (fun hd => h (hd.trans hcolon))]
    · rfl

/-! ## Languages -/

/-- Namespaces that are the same belong to the same code pages in all languages, and others do
not. -/
theorem forall_pageOfUri?_iff {first second : String} :
    (∀ language : Language, language.pageOfUri? first = language.pageOfUri? second) ↔
      same first second = true := by
  constructor
  · intro h
    let language : Language :=
      { name := "", publicId := none, fpi := "", dtd := "", doctypeRoot := "",
        pages := [{ page := 0, uri := second, tags := [] }] }
    have hpage := h language
    unfold Language.pageOfUri? at hpage
    cases hsame : same second first with
    | true => exact same_comm hsame
    | false => simp [language, hsame, same_refl] at hpage
  · intro h language
    exact Language.pageOfUri?_of_same h

/-! ## References -/

section Escape
variable {charset : Charset}

/-- A character that is written as it is in an attribute value. -/
def IsPlainChar (charset : Charset) (c : Char) : Prop :=
  c ∉ ['&', '<', '>', '"', '\''] ∧ charset.canEncode c = true

theorem isPlainChar_colon : IsPlainChar charset ':' :=
  ⟨by decide, canEncode_of_ascii (by decide)⟩

theorem isPlainUri_iff {space : String} : IsPlainUri charset space ↔
    space ≠ "" ∧ ∀ c ∈ space.toList, IsPlainChar charset c := by
  unfold IsPlainUri IsLiteral Encodable IsPlainChar
  constructor
  · rintro ⟨⟨hne, hliteral⟩, hencodable⟩
    exact ⟨hne, fun c hc => ⟨hliteral c hc, hencodable c hc⟩⟩
  · rintro ⟨hne, h⟩
    exact ⟨⟨hne, fun c hc => (h c hc).1⟩, fun c hc => (h c hc).2⟩

/-- The case of a letter does not matter to how it is written. -/
theorem isPlainChar_toLower_iff (c : Char) :
    IsPlainChar charset c.toLower ↔ IsPlainChar charset c := by
  have hletter : ∀ n < 26, IsPlainChar charset (Char.ofNat (n + 0x41)).toLower ∧
      IsPlainChar charset (Char.ofNat (n + 0x41)) := by
    unfold IsPlainChar
    cases charset <;> decide
  by_cases h : c.val ≥ 'A'.val ∧ c.val ≤ 'Z'.val
  · have hlow : 0x41 ≤ c.toNat := UInt32.le_iff_toNat_le.mp h.1
    have hhigh : c.toNat ≤ 0x5A := UInt32.le_iff_toNat_le.mp h.2
    have hc : Char.ofNat (c.toNat - 0x41 + 0x41) = c := by
      rw [Nat.sub_add_cancel hlow, Char.ofNat_toNat]
    have hplain := hletter (c.toNat - 0x41) (by omega)
    rw [hc] at hplain
    exact iff_of_true hplain.1 hplain.2
  · have hsame : c.toLower = c := dif_neg h
    rw [hsame]

theorem escapeChar_of_plain {c : Char} (h : IsPlainChar charset c) :
    escapeChar charset true c = [c] := by
  obtain ⟨hplain, hencodable⟩ := h
  simp only [List.mem_cons, not_or] at hplain
  obtain ⟨hamp, hlt, hgt, hquot, hapos, -⟩ := hplain
  simp [escapeChar, escapeMarkup, escapeForeign, hamp, hlt, hgt, hquot, hapos, hencodable]

/-- Another character is written as a reference. -/
theorem escapeChar_of_not_plain {c : Char} (h : ¬ IsPlainChar charset c) :
    ∃ name, escapeChar charset true c = '&' :: (name ++ [';']) := by
  rcases escapeChar_cases charset true c with ⟨hsame, hmarkup, hquotes⟩ | ⟨name, hname, -⟩
  · have hquote := hquotes rfl
    have hencodable : Encodable charset (escape charset true (String.singleton c)) :=
      encodable_escape true _
    have hchars : (escape charset true (String.singleton c)).toList = [c] := by
      rw [toList_escape, String.toList_singleton, List.flatMap_singleton, hsame]
    refine absurd ⟨?_, hencodable c (by rw [hchars]; exact List.mem_singleton_self c)⟩ h
    simp only [List.mem_cons, not_or] at hmarkup hquote ⊢
    exact ⟨hmarkup.2.2.1, hmarkup.1, hmarkup.2.1, hquote.2.1, hquote.1, List.not_mem_nil⟩
  · exact ⟨name, hname⟩

/-- The colons at the end of a name are written as they are, and others do not come in. -/
theorem trimmed_escape (chars : List Char) :
    trimmed (chars.flatMap (escapeChar charset true)) =
      (trimmed chars).flatMap (escapeChar charset true) := by
  have hcolon : escapeChar charset true ':' = [':'] := escapeChar_of_plain isPlainChar_colon
  -- What is written of another character ends in that character or in a semicolon.
  have hlast (c : Char) (hc : c ≠ ':') :
      ∃ front d, escapeChar charset true c = front ++ [d] ∧ d ≠ ':' := by
    by_cases hplain : IsPlainChar charset c
    · exact ⟨[], c, escapeChar_of_plain hplain, hc⟩
    · obtain ⟨name, hname⟩ := escapeChar_of_not_plain hplain
      exact ⟨'&' :: name, ';', hname, by decide⟩
  induction chars using List.reverseRecOn with
  | nil => rfl
  | append_singleton chars c ih =>
    rw [trimmed_concat, List.flatMap_append, List.flatMap_singleton]
    split
    · rename_i hc
      rw [hc, hcolon, trimmed_concat, if_pos rfl, ih]
    · rename_i hc
      obtain ⟨front, d, hescape, hd⟩ := hlast c hc
      rw [List.flatMap_append, List.flatMap_singleton, hescape, ← List.append_assoc,
        trimmed_concat, if_neg hd]

/-- References make a name longer. -/
theorem length_flatMap_escapeChar (charset : Charset) (chars : List Char) :
    chars.length ≤ (chars.flatMap (escapeChar charset true)).length ∧
      ((chars.flatMap (escapeChar charset true)).length = chars.length →
        ∀ c ∈ chars, IsPlainChar charset c) := by
  induction chars with
  | nil => simp
  | cons c chars ih =>
    obtain ⟨hle, hplain⟩ := ih
    rw [List.flatMap_cons, List.length_append, List.length_cons]
    by_cases hc : IsPlainChar charset c
    · rw [escapeChar_of_plain hc, List.length_singleton]
      refine ⟨by omega, fun hlength d hd => ?_⟩
      rcases List.mem_cons.mp hd with rfl | hd
      · exact hc
      · exact hplain (by omega) d hd
    · obtain ⟨name, hname⟩ := escapeChar_of_not_plain hc
      have hlonger : 2 ≤ (escapeChar charset true c).length := by
        rw [hname]
        simp
      exact ⟨by omega, fun hlength => by omega⟩

/-- What is written with references is another namespace when it is read, for they are not
resolved. -/
theorem same_escape_iff {space : String} : same (escape charset true space) space = true ↔
    ∀ c ∈ space.toList, IsPlainChar charset c := by
  rw [same_iff, toList_escape, trimmed_escape]
  constructor
  · intro h c hc
    have hlength := congrArg List.length h
    rw [List.length_map, List.length_map] at hlength
    by_cases hcolon : c = ':'
    · exact hcolon ▸ isPlainChar_colon
    · exact (length_flatMap_escapeChar charset _).2 hlength c ((mem_trimmed_iff hcolon).mpr hc)
  · intro h
    have hplain (c : Char) (hc : c ∈ trimmed space.toList) : escapeChar charset true c = [c] :=
      escapeChar_of_plain (h c (mem_of_mem_trimmed hc))
    rw [List.flatMap_congr hplain, List.flatMap_singleton']

theorem forall_isPlainChar_of_same {first second : String} (h : same first second = true)
    (plain : ∀ c ∈ first.toList, IsPlainChar charset c) :
    ∀ c ∈ second.toList, IsPlainChar charset c := by
  intro c hc
  by_cases hcolon : c = ':'
  · exact hcolon ▸ isPlainChar_colon
  have hmem : c.toLower ∈ (trimmed first.toList).map Char.toLower := by
    rw [same_iff.mp h]
    exact List.mem_map_of_mem ((mem_trimmed_iff hcolon).mpr hc)
  obtain ⟨d, hd, heq⟩ := List.mem_map.mp hmem
  rw [← isPlainChar_toLower_iff, ← heq, isPlainChar_toLower_iff]
  exact plain d (mem_of_mem_trimmed hd)

/-- What is read in place of a namespace: it is written in some spelling that is the same, and
references that this needs make it another one, of which no language knows the code page. -/
structure ReadBack (charset : Charset) (space found : String) : Prop where
  spelt : ∃ spelling, same spelling space = true ∧ found = escape charset true spelling
  same_iff : same found space = true ↔ IsPlainUri charset space
  pages_iff : (∀ language : Language, language.pageOfUri? found = language.pageOfUri? space ∧
      ∀ name current, language.tagCode? (some found) name current =
        language.tagCode? (some space) name current) ↔ IsPlainUri charset space

theorem readBack_escape {space spelling : String} (hspace : space ≠ "")
    (hsame : same spelling space = true) : ReadBack charset space (escape charset true spelling) := by
  have hiff : same (escape charset true spelling) space = true ↔ IsPlainUri charset space := by
    rw [isPlainUri_iff]
    constructor
    · intro h
      have hspelling := same_escape_iff.mp (same_trans h (same_comm hsame))
      exact ⟨hspace, forall_isPlainChar_of_same hsame hspelling⟩
    · rintro ⟨-, h⟩
      have hspelling := forall_isPlainChar_of_same (same_comm hsame) h
      exact same_trans (same_escape_iff.mpr hspelling) hsame
  refine ⟨⟨spelling, hsame, rfl⟩, hiff, ?_⟩
  rw [← hiff, ← forall_pageOfUri?_iff]
  constructor
  · exact fun h language => (h language).1
  · refine fun h language => ⟨h language, fun name current => ?_⟩
    unfold Language.tagCode?
    rw [Option.bind_some, Option.bind_some, h language]

end Escape

end Namespace

/-! ## Elements at the end of a path -/

section Paths
variable {charset : Charset}

theorem elements_readAllAs (outer : Option String) (nodes : List Node) :
    Node.elements (Node.readAllAs charset outer nodes) =
      (Node.elements nodes).map (Element.readAs charset outer) := by
  induction nodes with
  | nil => rw [Node.readAllAs]; rfl
  | cons node rest ih => cases node <;> simp [Node.readAllAs, ih]

theorem elements_condensedAll (nodes : List Node) :
    Node.elements (Node.condensedAll charset nodes) =
      (Node.elements nodes).map (Element.condensed charset) := by
  induction nodes with
  | nil => rw [Node.condensedAll]; rfl
  | cons node rest ih => cases node <;> simp [Node.condensedAll, ih]

/-- The namespace that was declared last around the element at the end of a path. -/
def Element.scopeAt (outer : Option String) : List Nat → Element → Option String
  | [], _ => outer
  | index :: path, root => (root.childElements[index]?).bind fun child =>
      child.scopeAt (innerScope outer root.uri) path

theorem childElements_readAs (outer : Option String) (root : Element) :
    ((root.condensed charset).readAs charset outer).childElements =
      root.childElements.map fun child =>
        (child.condensed charset).readAs charset (innerScope outer root.uri) := by
  obtain ⟨name, uri, attributes, children⟩ := root
  rw [Element.condensed, Element.readAs]
  refine (elements_readAllAs _ _).trans ?_
  rw [Node.elements_coalesce, elements_condensedAll, List.map_map]
  rfl

/-- An element is read at the end of the same path, with the namespace that holds there. -/
theorem at?_readAs (root : Element) (outer : Option String) (path : List Nat) :
    ((root.condensed charset).readAs charset outer).at? path = (root.at? path).map fun element =>
      (element.condensed charset).readAs charset (root.scopeAt outer path) := by
  induction path generalizing root outer with
  | nil => rfl
  | cons index path ih =>
    rw [Element.at?, Element.at?, Element.scopeAt, childElements_readAs, List.getElem?_map]
    cases root.childElements[index]? with
    | none => rfl
    | some child => exact ih child _

theorem innerScope_ne_empty {outer uri : Option String}
    (houter : ∀ declared, outer = some declared → declared ≠ "")
    (huri : ∀ declared, uri = some declared → declared ≠ "") :
    ∀ declared, innerScope outer uri = some declared → declared ≠ "" := by
  intro declared hdeclared
  rcases shown_cases outer uri [] with ⟨-, hinner⟩ | ⟨value, hvalue, -, hinner⟩
  · exact houter declared (hinner ▸ hdeclared)
  · rw [hinner] at hdeclared
    cases hdeclared
    exact huri declared hvalue

/-- No declared namespace is empty. -/
theorem scopeAt_ne_empty {root : Element} {outer : Option String} {path : List Nat} {space : String}
    (h : root.Every fun element => ∀ declared, element.uri = some declared → declared ≠ "")
    (houter : ∀ declared, outer = some declared → declared ≠ "")
    (hscope : root.scopeAt outer path = some space) : space ≠ "" := by
  induction path generalizing root outer with
  | nil => exact houter space hscope
  | cons index path ih =>
    obtain ⟨child, hchild, hscope⟩ := Option.bind_eq_some_iff.mp hscope
    refine ih (h.child (List.mem_of_getElem? hchild)) (fun declared hdeclared => ?_) hscope
    exact innerScope_ne_empty houter h.self declared hdeclared

/-- What is read of the namespace of an element, wherever it was declared. -/
theorem readUri_innerScope (charset : Charset) {scope : Option String} {space : String}
    (hspace : space ≠ "") (hscope : ∀ declared, scope = some declared → declared ≠ "") :
    ∃ found, readUri charset (innerScope scope (some space)) = some found ∧
      Namespace.ReadBack charset space found := by
  obtain ⟨spelling, hinner, hsame⟩ := exists_innerScope scope space
  have hne : spelling ≠ "" := innerScope_ne_empty hscope (by simpa using hspace) spelling hinner
  refine ⟨_, ?_, Namespace.readBack_escape hspace hsame⟩
  have hwritten : escape charset true spelling ≠ "" := by
    intro hempty
    have hlength := (Namespace.length_flatMap_escapeChar charset spelling.toList).1
    rw [← toList_escape, hempty, String.toList_empty] at hlength
    exact hne (String.toList_eq_nil_iff.mp (List.length_eq_zero_iff.mp (Nat.le_zero.mp hlength)))
  rw [hinner, readUri, Option.map_some, Option.filter_some, if_pos (by simpa using hwritten)]

end Paths

/-! ## Documents -/

section Documents
variable {options : DecodeOptions} {document : Document} {maxDepth : Nat}

/-- A document whose names are names of XML can be written and read. Each element is found where it
was, and it has a namespace that is the same as before if and only if that namespace is written
without references. -/
theorem readBack_of_writeDocument (compact : options.form = .compact)
    (presentable : document.root.Presentable options.charset (· ≠ ""))
    (commented : document.root.Commented) (declarable : options.language.Declarable)
    (hlatin1 : options.charset = .latin1 → options.language.DeclarableIn .latin1)
    (hlevels : document.root.levels ≤ maxDepth) :
    ∃ bytes parsed, writeDocument options document = .ok bytes ∧
      parseDocument options.language maxDepth (options.charset.toUtf8 bytes) = .ok parsed ∧
      ∀ path, (parsed.root.at? path).map (·.name) = (document.root.at? path).map (·.name) ∧
        ∀ element space, document.root.at? path = some element → element.uri = some space →
          ∃ element' found, parsed.root.at? path = some element' ∧ element'.uri = some found ∧
            Namespace.ReadBack options.charset space found := by
  obtain ⟨bytes, hbytes, hutf8⟩ :=
    exists_writeDocument_compact compact (namesEncodable_of_presentable presentable) hlatin1
  have hparse : parseDocument options.language maxDepth (options.charset.toUtf8 bytes) =
      .ok ⟨(document.root.condensed options.charset).readAs options.charset none⟩ := by
    rw [hutf8, parseDocument_written declarable (readable_of_presentable presentable) commented,
      checkDoctype_doctypeData]
    exact if_pos hlevels
  refine ⟨bytes, _, hbytes, hparse, fun path => ?_⟩
  dsimp only
  rw [at?_readAs]
  refine ⟨?_, fun element space hat huri => ?_⟩
  · rw [Option.map_map]
    congr 1
    funext element
    cases element
    rw [Function.comp_apply, Element.condensed, Element.readAs]
  · have hnone : ∀ declared, (none : Option String) = some declared → declared ≠ "" := nofun
    have hspaces := presentable.imp fun _ tag => tag.uri
    have hspace : space ≠ "" := (every_at? presentable hat).uri space huri
    obtain ⟨found, hfound, hread⟩ := readUri_innerScope options.charset hspace
      fun _ => scopeAt_ne_empty hspaces hnone
    obtain ⟨name, uri, attributes, children⟩ := element
    dsimp only at huri
    subst huri
    rw [hat, Option.map_some, Element.condensed, Element.readAs, hfound]
    exact ⟨_, found, rfl, rfl, hread⟩

/-- A language with two code pages that have the same tag. The namespace of the second has an
ampersand in it. -/
def ampersandLanguage : Language :=
  { name := "amp", publicId := none, fpi := "f", dtd := "d", doctypeRoot := "t",
    pages := [{ page := 0, uri := "x", tags := [⟨0x05, "t"⟩] },
      { page := 1, uri := "a&b", tags := [⟨0x05, "t"⟩] }] }

/-- A document with a namespace that has an ampersand, in two spellings, and others between. -/
def spacedDocument : Document :=
  ⟨⟨"t", some "A&B:", [⟨"k", "<"⟩], [.text "a", .text "", .element ⟨"t", some "a&b", [], []⟩,
    .comment "€", .element ⟨"t", some "X:", [], [.element ⟨"t", some "é", [], [.text ""]⟩]⟩]⟩⟩

theorem readBack_of_writeDocument_spacedDocument : ∃ bytes parsed,
    writeDocument { language := ampersandLanguage, charset := .usAscii } spacedDocument =
        .ok bytes ∧
      parseDocument ampersandLanguage 3 bytes = .ok parsed ∧
      ∀ path, (parsed.root.at? path).map (·.name) = (spacedDocument.root.at? path).map (·.name) ∧
        ∀ element space, spacedDocument.root.at? path = some element → element.uri = some space →
          ∃ element' found, parsed.root.at? path = some element' ∧ element'.uri = some found ∧
            Namespace.ReadBack .usAscii space found := by
  have hpresentable : spacedDocument.root.Presentable .usAscii (· ≠ "") := by
    simp [spacedDocument, Element.Presentable, Element.Every, Node.EveryAll,
      Element.tagPresentable_iff, Encodable]
    decide
  have hcommented : spacedDocument.root.Commented := by
    simp [spacedDocument, Element.Commented, Node.CommentedAll, IsComment]
    decide
  have hdeclarable : ampersandLanguage.Declarable := by
    unfold Language.Declarable IsLiteral
    decide
  have hlevels : spacedDocument.root.levels ≤ 3 := by
    simp [spacedDocument, Element.levels, Node.levelsAll]
  let options : DecodeOptions := { language := ampersandLanguage, charset := .usAscii }
  have hcompact : options.form = .compact := rfl
  have hcharset : options.charset ≠ .latin1 := by decide
  exact readBack_of_writeDocument hcompact hpresentable hcommented hdeclarable
    (fun hlatin1 => absurd hlatin1 hcharset) hlevels

/-- The reference to the ampersand is not resolved in the declaration of a namespace, so that the
element belongs to another code page. -/
theorem encode_ampersandSpace :
    encodeDocument { language := ampersandLanguage } ⟨⟨"t", some "a&b", [], []⟩⟩ =
        .ok [0x03, 0x01, 0x6A, 0x00, 0x00, 0x01, 0x05] ∧
      writeDocument { language := ampersandLanguage } ⟨⟨"t", some "a&b", [], []⟩⟩ =
        .ok (Utf8.encode ("<?xml version=\"1.0\"?><!DOCTYPE t PUBLIC \"f\" \"d\">" ++
          "<t xmlns=\"a&amp;b\"/>")) ∧
      parseDocument ampersandLanguage defaultMaxDepth
        (Utf8.encode ("<?xml version=\"1.0\"?><!DOCTYPE t PUBLIC \"f\" \"d\">" ++
          "<t xmlns=\"a&amp;b\"/>")) = .ok ⟨⟨"t", some "a&amp;b", [], []⟩⟩ ∧
      Namespace.same "a&amp;b" "a&b" = false ∧
      ampersandLanguage.pageOfUri? "a&b" = some 1 ∧
      ampersandLanguage.pageOfUri? "a&amp;b" = none ∧
      encodeDocument { language := ampersandLanguage } ⟨⟨"t", some "a&amp;b", [], []⟩⟩ =
        .ok [0x03, 0x01, 0x6A, 0x00, 0x05] := by
  refine ⟨by decide +kernel, by decide +kernel, by decide +kernel, by decide +kernel,
    by decide +kernel, by decide +kernel, by decide +kernel⟩

end Documents

end BinaryXml
