import BinaryXml.Proofs.Conversion
import BinaryXml.Proofs.Stream.Canonical
import BinaryXml.Proofs.Stream.Spelling
import BinaryXml.Proofs.Xml.RoundTrip

/-! # XML of a stream that is encoded again

An element that has no token is without a namespace in a stream. In the XML of the stream it has
the namespace that holds where it stands, and with that it may be taken for a tag.

* `Element.Uncaptured`: no element without a namespace is a tag where it stands.
* `readBack_resolved`: what is read again is the same up to namespaces, and it is the same
  altogether if and only if no element is captured.
* `decodeDocument_of_encode_decode`: so it is with the XML of a stream that was encoded.
-/

namespace BinaryXml

open Encoding Grammar
open Writing (innerScope)

set_option autoImplicit false

/-! ## Elements that are captured -/

mutual

/-- Every element without a namespace has a name that is no tag where the element stands. -/
def Element.Uncaptured (language : Language) (scope : Option String) : Element → Prop
  | ⟨name, uri, _, children⟩ =>
    (uri = none → language.Lacks name scope) ∧ Node.UncapturedAll language (uri.or scope) children

def Node.UncapturedAll (language : Language) (scope : Option String) : List Node → Prop
  | [] => True
  | .element child :: rest => child.Uncaptured language scope ∧ Node.UncapturedAll language scope rest
  | .text _ :: rest => Node.UncapturedAll language scope rest
  | .comment _ :: rest => Node.UncapturedAll language scope rest

end

section Captured
variable {language : Language} {whitespace : Whitespace}

/-- A namespace of a code page is declared unless it holds. -/
theorem innerScope_of_hasPage (distinct : language.Distinct) {scope uri : Option String}
    (hscope : ∀ space, scope = some space → language.HasPage space)
    (huri : ∀ space, uri = some space → language.HasPage space) :
    innerScope scope uri = uri.or scope := by
  cases uri with
  | none => exact innerScope_none scope
  | some space =>
    obtain ⟨spelt, hspelt, hsame⟩ := exists_innerScope scope space
    rw [hspelt, Option.some_or]
    rcases shown_cases scope (some space) [] with ⟨-, hinner⟩ | ⟨value, hvalue, -, hinner⟩
    · rw [language.eq_of_same distinct (hscope spelt (hinner ▸ hspelt)) (huri space rfl) hsame]
    · rw [← hspelt, hinner, hvalue]

/-- The namespace of a settled element is read again unless there was none and the name is a tag
where the element stands. -/
theorem uri_eq_iff (regular : language.Regular) (distinct : language.Distinct) {name : String}
    {uri scope : Option String} (hscope : ∀ space, scope = some space → language.HasPage space)
    (htag : ∀ space, uri = some space → language.HasTag space name) (page : UInt8) :
    ((language.tagCode? (uri.or scope) name page).bind fun code => language.uri? code.page) = uri ↔
      (uri = none → language.Lacks name scope) := by
  cases uri with
  | some space =>
    rw [Option.some_or, uri_of_tagCode? regular distinct htag nofun]
    simp
  | none =>
    rw [Option.none_or, ← Language.tagCode?_eq_none_iff regular distinct hscope]
    cases hcode : language.tagCode? scope name page with
    | none => simp
    | some code =>
      obtain ⟨codePage, hpage, -⟩ := Language.exists_of_tagCode? hcode
      simp [Language.uri?, hpage]

mutual

/-- A settled element whose namespaces are resolved is read back the same up to namespaces, and
altogether the same unless an element is captured. -/
theorem readBack_resolved (regular : language.Regular) (distinct : language.Distinct)
    {scope : Option String} (hscope : ∀ space, scope = some space → language.HasPage space)
    (page : UInt8) : ∀ root : Element, Settled language whitespace root →
      Settled language whitespace (readBack language whitespace page (root.resolved scope)).1 ∧
      (readBack language whitespace page (root.resolved scope)).1.unqualified = root.unqualified ∧
      ((readBack language whitespace page (root.resolved scope)).1 = root ↔
        root.Uncaptured language scope)
  | ⟨name, uri, attributes, children⟩, h => by
    rw [Settled] at h
    have huri (space : String) (hspace : uri = some space) : language.HasPage space :=
      Language.hasPage_of_hasTag (h.1 space hspace)
    have hinside (space : String) (hspace : uri.or scope = some space) : language.HasPage space := by
      rcases Option.or_eq_some_iff.mp hspace with hspace | ⟨-, hspace⟩
      · exact huri space hspace
      · exact hscope space hspace
    obtain ⟨hsettled, hsame, heq⟩ := readBackAll_resolvedAll regular distinct hinside
      (pageAfter page (language.tagCode? (uri.or scope) name page)) children h.2
    -- Texts stand where they stood, so that nothing is left to arrange.
    have hmade := Decoding.children_iff.mp (children_of_settled hsettled)
    rw [Element.resolved, innerScope_of_hasPage distinct hscope huri, readBack, Element.Uncaptured,
      Settled]
    simp only [← hmade]
    refine ⟨⟨fun space => Language.hasTag_of_tagCode? regular, hsettled⟩,
      Element.unqualified_eq_iff.mpr ⟨rfl, rfl, hsame⟩, ?_⟩
    rw [← heq, ← uri_eq_iff regular distinct hscope h.1 page]
    simp

theorem readBackAll_resolvedAll (regular : language.Regular) (distinct : language.Distinct)
    {scope : Option String} (hscope : ∀ space, scope = some space → language.HasPage space)
    (page : UInt8) : ∀ nodes : List Node, SettledAll language whitespace nodes →
      SettledAll language whitespace
        (readBackAll language whitespace page (Node.resolvedAll scope nodes)).1 ∧
      Node.unqualifiedAll (readBackAll language whitespace page (Node.resolvedAll scope nodes)).1 =
        Node.unqualifiedAll nodes ∧
      ((readBackAll language whitespace page (Node.resolvedAll scope nodes)).1 = nodes ↔
        Node.UncapturedAll language scope nodes)
  | [], h => by
    rw [Node.resolvedAll, readBackAll, Node.UncapturedAll]
    exact ⟨h, rfl, iff_of_true rfl trivial⟩
  | .element child :: rest, h => by
    rw [settledAll_element_iff] at h
    obtain ⟨hchild, hsame, heq⟩ := readBack_resolved regular distinct hscope page child h.1
    obtain ⟨hrest, hsame', heq'⟩ := readBackAll_resolvedAll regular distinct hscope
      (readBack language whitespace page (child.resolved scope)).2 rest h.2
    rw [Node.resolvedAll, readBackAll, Node.UncapturedAll, settledAll_element_iff,
      Node.unqualifiedAll_element, Node.unqualifiedAll_element, hsame, hsame', ← heq, ← heq']
    exact ⟨⟨hchild, hrest⟩, rfl, by simp⟩
  | .text content :: rest, h => by
    rw [settledAll_text_iff] at h
    obtain ⟨hkept, hhead, hsettled⟩ := h
    obtain ⟨hrest, hsame, heq⟩ := readBackAll_resolvedAll regular distinct hscope page rest hsettled
    rw [Node.resolvedAll, readBackAll, Node.UncapturedAll, settledAll_text_iff,
      Node.unqualifiedAll_text, Node.unqualifiedAll_text, hsame, ← heq]
    refine ⟨⟨hkept, fun text htext => hhead text ?_, hrest⟩, rfl, by simp⟩
    rwa [← Node.head?_unqualifiedAll, hsame, Node.head?_unqualifiedAll] at htext
  | .comment content :: rest, h => (not_settledAll_comment h).elim

end

end Captured

/-! ## Trees with resolved namespaces -/

mutual

/-- What is left out when a tree is encoded does not depend on its namespaces. -/
theorem stripped_resolved (whitespace : Whitespace) (scope : Option String) :
    ∀ root : Element, (root.resolved scope).stripped whitespace =
      (root.stripped whitespace).resolved scope
  | ⟨_, uri, _, children⟩ => by
    simp only [Element.resolved, Element.stripped,
      strippedAll_resolvedAll whitespace (innerScope scope uri) children]

theorem strippedAll_resolvedAll (whitespace : Whitespace) (scope : Option String) :
    ∀ nodes : List Node, Node.strippedAll whitespace (Node.resolvedAll scope nodes) =
      Node.resolvedAll scope (Node.strippedAll whitespace nodes)
  | [] => rfl
  | .element child :: rest => by
    simp only [Node.resolvedAll, Node.strippedAll, stripped_resolved whitespace scope child,
      strippedAll_resolvedAll whitespace scope rest]
  | .text content :: rest => by
    simp only [Node.resolvedAll, Node.strippedAll, strippedAll_resolvedAll whitespace scope rest]
    cases whitespace.apply content <;> rfl
  | .comment content :: rest => by
    simp only [Node.resolvedAll, Node.strippedAll, strippedAll_resolvedAll whitespace scope rest]

end

mutual

theorem spellable_resolved (scope : Option String) :
    ∀ {root : Element}, Spellable root → Spellable (root.resolved scope)
  | ⟨_, uri, _, children⟩, h => by
    rw [Spellable] at h
    rw [Element.resolved, Spellable]
    exact ⟨h.1, h.2.1, spellableAll_resolvedAll (innerScope scope uri) h.2.2⟩

theorem spellableAll_resolvedAll (scope : Option String) :
    ∀ {nodes : List Node}, SpellableAll nodes → SpellableAll (Node.resolvedAll scope nodes)
  | [], h => h
  | .element child :: rest, h => by
    rw [SpellableAll] at h
    rw [Node.resolvedAll, SpellableAll]
    exact ⟨spellable_resolved scope h.1, spellableAll_resolvedAll scope h.2⟩
  | .text content :: rest, h => by
    rw [SpellableAll] at h
    rw [Node.resolvedAll, SpellableAll]
    exact ⟨h.1, spellableAll_resolvedAll scope h.2⟩
  | .comment content :: rest, h => by
    rw [SpellableAll] at h
    rw [Node.resolvedAll, SpellableAll]
    exact spellableAll_resolvedAll scope h

end

mutual

theorem every_of_settled {language : Language} {whitespace : Whitespace} :
    ∀ {root : Element}, Settled language whitespace root →
      root.Every fun element => ∀ space, element.uri = some space → language.HasPage space
  | ⟨_, _, _, _⟩, h => by
    rw [Settled] at h
    rw [Element.Every]
    exact ⟨fun space hspace => Language.hasPage_of_hasTag (h.1 space hspace),
      everyAll_of_settledAll h.2⟩

theorem everyAll_of_settledAll {language : Language} {whitespace : Whitespace} :
    ∀ {nodes : List Node}, SettledAll language whitespace nodes →
      Node.EveryAll (fun element => ∀ space, element.uri = some space → language.HasPage space) nodes
  | [], _ => by
    rw [Node.EveryAll]
    trivial
  | .element child :: rest, h => by
    rw [settledAll_element_iff] at h
    rw [Node.EveryAll]
    exact ⟨every_of_settled h.1, everyAll_of_settledAll h.2⟩
  | .text content :: rest, h => by
    rw [settledAll_text_iff] at h
    rw [Node.EveryAll]
    exact everyAll_of_settledAll h.2.2
  | .comment content :: rest, h => (not_settledAll_comment h).elim

end

/-! ## ActiveSync -/

theorem ActiveSync.isPlainUri (space : String) (h : ActiveSync.language.HasPage space) :
    IsPlainUri .utf8 space := by
  have hall : ∀ codePage ∈ ActiveSync.language.pages, codePage.uri ≠ "" ∧
      ∀ c ∈ codePage.uri.toList, c ∉ ['&', '<', '>', '"', '\''] := by
    decide +kernel
  obtain ⟨codePage, hmem, rfl⟩ := h
  exact ⟨hall codePage hmem, encodable_utf8 _⟩

/-- The namespaces of a settled tree are read as they are written. -/
theorem ActiveSync.readAs_eq_resolved {whitespace : Whitespace} {root : Element}
    (h : Settled ActiveSync.language whitespace root) :
    root.readAs .utf8 none = root.resolved none :=
  BinaryXml.readAs_eq_resolved ((every_of_settled h).imp fun _ hpage space hspace =>
    ActiveSync.isPlainUri space (hpage space hspace)) (by simp)

/-! ## Streams and their XML -/

section Reencoding
variable {options : EncodeOptions} {reading : DecodeOptions} {text stream : Bytes}
  {document : Document}

theorem exists_decodeDocument (regular : options.language.Regular)
    (clean : CleanLanguage options.language) (hlanguage : reading.language = options.language)
    (hencoding : reading.opaqueEncoding = options.opaqueEncoding)
    (hdepth : reading.maxDepth = options.maxDepth) (h : encode options text = .ok stream) :
    ∃ document, decodeDocument reading stream = .ok document ∧
      Settled options.language reading.whitespace document.root ∧
        document.root.levels ≤ options.maxDepth ∧ Spellable document.root ∧
          options.version ≤ newestVersion := by
  obtain ⟨source, -, hencoded⟩ := encode_eq_ok h
  have hlevels := levels_le_of_encode hencoded
  have hstream := stream_of_encode regular hlanguage hencoding (hdepth ▸ hlevels) hencoded
  obtain ⟨hsettled, hdeep⟩ := settled_of_stream hstream
  have hspell := spellable_readBack options.language reading.whitespace 0 _
    (Document.spellable_of_encode clean hencoded)
  exact ⟨_, Decoding.run_of_stream hstream, hlanguage ▸ hsettled, hdepth ▸ hdeep, hspell,
    UInt8.not_lt.mp (run_eq_ok hencoded).1⟩

variable (hsettled : Settled ActiveSync.language reading.whitespace document.root)
include hsettled

theorem parseDocument_of_settled (hreader : reading.language = ActiveSync.language)
    (hform : reading.form = .compact) (hcharset : reading.charset = .utf8)
    (readable : document.root.Readable) {limit : Nat} (hlevels : document.root.levels ≤ limit)
    {shown : Bytes} (h : writeDocument reading document = .ok shown) :
    parseDocument ActiveSync.language limit shown = .ok ⟨document.root.resolved none⟩ := by
  have htidy := tidy_of_settled ActiveSync.tag_names document.root hsettled
  rw [writeDocument_eq_ok hform hcharset h, documentBytes_eq, hreader,
    parseDocument_prolog ActiveSync.language_declarable readable (neat_of_tidy .utf8 htidy),
    Writing.checkDoctype_doctypeData, ActiveSync.readAs_eq_resolved hsettled]
  exact if_pos hlevels

theorem stripped_resolved_of_settled :
    (document.root.resolved none).stripped .preserve = document.root.resolved none := by
  rw [stripped_resolved, stripped_of_settled document.root hsettled]

theorem levels_resolved_of_settled :
    (document.root.resolved none).levels = document.root.levels := by
  rw [← ActiveSync.readAs_eq_resolved hsettled, levels_readAs]

/-- The stream of the resolved document denotes the same document up to namespaces, and altogether
the same unless an element is captured. -/
theorem decodeDocument_of_resolved (hlanguage : options.language = ActiveSync.language)
    (hreader : reading.language = ActiveSync.language) (hpreserve : options.whitespace = .preserve)
    (hencoding : reading.opaqueEncoding = options.opaqueEncoding)
    (hlevels : document.root.levels ≤ reading.maxDepth)
    (h : encodeDocument options ⟨document.root.resolved none⟩ = .ok stream) :
    ∃ document', decodeDocument reading stream = .ok document' ∧
      document'.root.unqualified = document.root.unqualified ∧
      (document' = document ↔ document.root.Uncaptured ActiveSync.language none) := by
  have regular := ActiveSync.language_regular
  have hstripped := stripped_resolved_of_settled hsettled
  rw [← hpreserve] at hstripped
  have hshort : ((document.root.resolved none).stripped options.whitespace).levels ≤
      reading.maxDepth := by
    rw [hstripped, levels_resolved_of_settled hsettled]
    exact hlevels
  have hstream := stream_of_encode (hlanguage ▸ regular) (hreader.trans hlanguage.symm) hencoding
    hshort h
  rw [hstripped, hlanguage] at hstream
  have hscope (space : String) (hspace : none = some space) : ActiveSync.language.HasPage space :=
    nomatch hspace
  obtain ⟨-, hsame, heq⟩ := readBack_resolved regular ActiveSync.language_distinct hscope 0
    document.root hsettled
  refine ⟨_, Decoding.run_of_stream hstream, hsame, ?_⟩
  rw [← heq]
  constructor
  · exact congrArg Document.root
  · exact congrArg Document.mk

omit hsettled in
/-- The XML of a stream that was encoded is encoded again, as far as its names can be read. The new
stream denotes the same document unless an element is captured. -/
theorem decodeDocument_of_encode_decode (hlanguage : options.language = ActiveSync.language)
    (hreader : reading.language = ActiveSync.language) (hpreserve : options.whitespace = .preserve)
    (hform : reading.form = .compact) (hcharset : reading.charset = .utf8)
    (hencoding : reading.opaqueEncoding = options.opaqueEncoding)
    (hdepth : reading.maxDepth = options.maxDepth) (h : encode options text = .ok stream) :
    ∃ document shown, decodeDocument reading stream = .ok document ∧
      decode reading stream = .ok shown ∧ (document.root.Readable →
        (Document.Affordable options ⟨document.root.resolved none⟩ →
          ∃ stream', encode options shown = .ok stream') ∧
        ∀ stream', encode options shown = .ok stream' → ∃ document',
          decodeDocument reading stream' = .ok document' ∧
          document'.root.unqualified = document.root.unqualified ∧
          (document' = document ↔ document.root.Uncaptured ActiveSync.language none)) := by
  obtain ⟨document, hdocument, hsettled, hlevels, hspell, hversion⟩ :=
    exists_decodeDocument (hlanguage ▸ ActiveSync.language_regular)
      (hlanguage ▸ ActiveSync.cleanLanguage) (hreader.trans hlanguage.symm) hencoding hdepth h
  rw [hlanguage] at hsettled
  obtain ⟨shown, hwritten⟩ := exists_writeDocument_utf8 hcharset document
  refine ⟨document, shown, hdocument, (decode_of_decodeDocument hdocument).trans hwritten,
    fun readable => ?_⟩
  have hparsed : parseDocument options.language options.maxDepth shown =
      .ok ⟨document.root.resolved none⟩ :=
    hlanguage ▸ parseDocument_of_settled hsettled hreader hform hcharset readable hlevels hwritten
  rw [encode_of_parseDocument hparsed]
  constructor
  · intro hafford
    refine Document.encodeDocument_succeeds hversion ?_ ?_ ?_ hafford
    · rw [hlanguage]
      decide
    · rw [hpreserve, stripped_resolved_of_settled hsettled]
      exact spellable_resolved none hspell
    · rw [hpreserve, stripped_resolved_of_settled hsettled, levels_resolved_of_settled hsettled]
      exact hlevels
  · intro stream' hstream'
    exact decodeDocument_of_resolved hsettled hlanguage hreader hpreserve hencoding
      (hdepth ▸ hlevels) hstream'

end Reencoding

/-- A tag with an element inside that is none. -/
def otherText : Bytes :=
  Utf8.encode "<Sync xmlns=\"AirSync:\"><Other>a</Other></Sync>"

def otherStream : Bytes :=
  [0x03, 0x01, 0x6A, 0x00, 0x45, 0x44, 0x4F, 0x74, 0x68, 0x65, 0x72, 0x00, 0x03, 0x61, 0x00, 0x01,
    0x01]

def otherDocument : Document :=
  ⟨⟨"Sync", some "AirSync:", [], [.element ⟨"Other", none, [], [.text "a"]⟩]⟩⟩

theorem decodeDocument_otherText :
    encode {} otherText = .ok otherStream ∧ decodeDocument {} otherStream = .ok otherDocument ∧
      ∃ shown stream', decode {} otherStream = .ok shown ∧ encode {} shown = .ok stream' ∧
        decodeDocument {} stream' = .ok otherDocument := by
  have hencode : encode {} otherText = .ok otherStream := by
    decide +kernel
  have hdecode : decodeDocument {} otherStream = .ok otherDocument := by
    decide +kernel
  have hreader : ({} : DecodeOptions).language = ActiveSync.language := rfl
  obtain ⟨document, shown, hdocument, hshown, hagain⟩ :=
    decodeDocument_of_encode_decode rfl hreader rfl rfl rfl rfl rfl hencode
  cases hdecode.symm.trans hdocument
  have plain : otherDocument.root.PlainNames := by
    have hsync := isPlainName_of_isXmlName (show isXmlName "Sync" = true by decide)
    have hother := isPlainName_of_isXmlName (show isXmlName "Other" = true by decide)
    simp [otherDocument, Element.PlainNames, Node.PlainNamesAll, hsync, hother]
  have hafford : Document.Affordable {} ⟨otherDocument.root.resolved none⟩ := by
    have hdemands : documentDemands {} ⟨otherDocument.root.resolved none⟩ = [] := by
      decide +kernel
    unfold Document.Affordable
    rw [hdemands]
    exact ⟨by decide +kernel, by simp⟩
  have huncaptured : otherDocument.root.Uncaptured ActiveSync.language none := by
    have hlacks : ¬ ActiveSync.language.HasTag "AirSync:" "Other" := by
      unfold Language.HasTag
      decide +kernel
    simp [otherDocument, Element.Uncaptured, Node.UncapturedAll, Language.Lacks, hlacks]
  obtain ⟨hexists, hall⟩ := hagain (readable_of_plain _ plain)
  obtain ⟨stream', hstream'⟩ := hexists hafford
  obtain ⟨document', hdocument', -, heq⟩ := hall stream' hstream'
  rw [heq.mpr huncaptured] at hdocument'
  exact ⟨hencode, hdecode, shown, stream', hshown, hstream', hdocument'⟩

/-- A tag of one code page, inside an element with the namespace of another one. -/
def capturedText : Bytes :=
  Utf8.encode "<Sync xmlns=\"AirSync:\"><Add xmlns=\"Ping:\"/></Sync>"

/-- The stream of that text: there is no token for the inner element. -/
def literalStream : Bytes :=
  [0x03, 0x01, 0x6A, 0x00, 0x45, 0x04, 0x41, 0x64, 0x64, 0x00, 0x01]

/-- The XML of that stream: the inner element is a tag where it stands now. -/
def shownText : Bytes :=
  Utf8.encode ("<?xml version=\"1.0\"?><!DOCTYPE ActiveSync PUBLIC " ++
    "\"-//MICROSOFT//DTD ActiveSync//EN\" \"http://www.microsoft.com/\">" ++
    "<Sync xmlns=\"AirSync:\"><Add/></Sync>")

def tokenStream : Bytes :=
  [0x03, 0x01, 0x6A, 0x00, 0x45, 0x07, 0x01]

theorem decodeDocument_capturedText :
    encode {} capturedText = .ok literalStream ∧ decode {} literalStream = .ok shownText ∧
      encode {} shownText = .ok tokenStream ∧
        decodeDocument {} tokenStream ≠ decodeDocument {} literalStream := by
  decide +kernel

end BinaryXml
