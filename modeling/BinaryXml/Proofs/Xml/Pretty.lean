import BinaryXml.Conversion
import BinaryXml.Proofs.Text.Whitespace
import BinaryXml.Proofs.Xml.Transcoding

/-! # What pretty output changes

* `Element.pruned`: a tree without the blank texts where another tree has no text.
* `pruned_laidOut`: without its breaks, the tree that is read of pretty output is the one that is
  read of compact output.
* `pretty_compact`: so it is for whole documents, and streams made of both are the same.
-/

namespace BinaryXml

open Writing

set_option autoImplicit false

/-! ## Taking breaks away -/

/-- Whether a node is a text of white space. -/
def Node.isBlank : Node → Bool
  | .text content => Blank.isBlankText content
  | _ => false

@[simp] theorem Node.isBlank_element (child : Element) : (Node.element child).isBlank = false := rfl

@[simp] theorem Node.isBlank_text (content : String) :
    (Node.text content).isBlank = Blank.isBlankText content := rfl

@[simp] theorem Node.isBlank_comment (content : String) : (Node.comment content).isBlank = false := rfl

mutual

/-- A tree without the blank texts of those elements that have no text among their children in the
tree it was written from. -/
def Element.pruned : Element → Element → Element
  | ⟨_, _, _, sources⟩, found =>
    let children := if isMixed sources then found.children else found.children.filter (!·.isBlank)
    { found with children := Node.prunedAll sources children }

/-- The same for nodes, one after the other. -/
def Node.prunedAll : List Node → List Node → List Node
  | .element source :: sources, .element found :: rest =>
    .element (source.pruned found) :: Node.prunedAll sources rest
  | _ :: sources, node :: rest => node :: Node.prunedAll sources rest
  | _, rest => rest

end

section Pruned
variable {charset : Charset}

theorem filter_readAllAs (outer : Option String) {nodes : List Node} (h : isMixed nodes = false) :
    (Node.readAllAs charset outer nodes).filter (!·.isBlank) = Node.readAllAs charset outer nodes := by
  induction nodes with
  | nil => rw [Node.readAllAs, List.filter_nil]
  | cons node rest ih =>
    cases node with
    | element child => simp [Node.readAllAs, ih h]
    | text content => cases h
    | comment content => simp [Node.readAllAs, ih h]

mutual

/-- There is nothing to take from a tree that was read of compact output. -/
theorem pruned_readAs (outer : Option String) :
    ∀ root : Element, root.pruned (root.readAs charset outer) = root.readAs charset outer
  | ⟨name, uri, attributes, children⟩ => by
    rw [Element.readAs, Element.pruned]
    dsimp only
    cases hmixed : isMixed children with
    | true => rw [if_pos rfl, prunedAll_readAllAs _ children]
    | false => rw [if_neg nofun, filter_readAllAs _ hmixed, prunedAll_readAllAs _ children]

theorem prunedAll_readAllAs (outer : Option String) : ∀ nodes : List Node,
    Node.prunedAll nodes (Node.readAllAs charset outer nodes) = Node.readAllAs charset outer nodes
  | [] => by simp [Node.readAllAs, Node.prunedAll]
  | .element child :: rest => by
    rw [Node.readAllAs, Node.prunedAll, pruned_readAs outer child, prunedAll_readAllAs outer rest]
  | .text content :: rest => by
    rw [Node.readAllAs, Node.prunedAll, prunedAll_readAllAs outer rest]
    nofun
  | .comment content :: rest => by
    rw [Node.readAllAs, Node.prunedAll, prunedAll_readAllAs outer rest]
    nofun

end

mutual

/-- Without its breaks, a tree that was read of pretty output is the one of compact output. -/
theorem pruned_laidOut (outer : Option String) (layout : Layout) : ∀ root : Element,
    root.pruned ((root.laidOut (some layout)).readAs charset outer) = root.readAs charset outer
  | ⟨name, uri, attributes, children⟩ => by
    rcases laidOut_cases layout name uri attributes children with ⟨hsame, -⟩ | ⟨hmixed, hlaid⟩
    · rw [hsame, pruned_readAs]
    · rw [hlaid, Element.readAs, Element.readAs, Element.pruned, hmixed]
      dsimp only
      rw [if_neg nofun, prunedAll_laidOutAll _ layout.nested layout children hmixed]

theorem prunedAll_laidOutAll (outer : Option String) (layout last : Layout) : ∀ nodes : List Node,
    isMixed nodes = false → Node.prunedAll nodes ((Node.readAllAs charset outer
      (Node.laidOutAll (some layout) nodes ++ [.text (lineBreak (some last))])).filter (!·.isBlank)) =
        Node.readAllAs charset outer nodes
  | [], _ => by
    simp [Node.laidOutAll, Node.readAllAs, isBlankText_lineBreak, Node.prunedAll]
  | .element child :: rest, hmixed => by
    have hchild := pruned_laidOut outer layout child
    have hrest := prunedAll_laidOutAll outer layout last rest hmixed
    simp [Node.laidOutAll, breakNodes, Node.readAllAs, isBlankText_lineBreak,
      Node.prunedAll, hchild, hrest]
  | .text content :: rest, hmixed => by cases hmixed
  | .comment content :: rest, hmixed => by
    have hrest := prunedAll_laidOutAll outer layout last rest hmixed
    simp [Node.laidOutAll, breakNodes, Node.readAllAs, isBlankText_lineBreak,
      Node.prunedAll, hrest]

end

end Pruned

/-! ## Streams -/

theorem strip_lineBreak (layout : Option Layout) :
    Whitespace.strip.apply (lineBreak layout) = none := by
  have htrim (chars : List Char) (h : chars.all Blank.isBlank = true) : Blank.trimChars chars = [] := by
    have hnone : chars.dropWhile Blank.isBlank = [] :=
      List.dropWhile_eq_nil_iff.mpr (List.all_eq_true.mp h)
    rw [Blank.trimChars, hnone]
    rfl
  have hblank : Blank.trim (lineBreak layout) = "" := by
    rw [Blank.trim, htrim _ (isBlankText_lineBreak layout)]
  unfold Whitespace.apply
  rw [hblank]
  rfl

theorem Node.strippedAll_append (whitespace : Whitespace) (front back : List Node) :
    Node.strippedAll whitespace (front ++ back) =
      Node.strippedAll whitespace front ++ Node.strippedAll whitespace back := by
  induction front with
  | nil => rw [List.nil_append, Node.strippedAll, List.nil_append]
  | cons node rest ih =>
    cases node with
    | element child => simp [Node.strippedAll, ih]
    | text content => cases hkept : whitespace.apply content <;> simp [Node.strippedAll, hkept, ih]
    | comment content => simp [Node.strippedAll, ih]

section Stripped
variable {charset : Charset}

theorem readAllAs_append (outer : Option String) (front back : List Node) :
    Node.readAllAs charset outer (front ++ back) =
      Node.readAllAs charset outer front ++ Node.readAllAs charset outer back := by
  induction front with
  | nil => rw [List.nil_append, Node.readAllAs, List.nil_append]
  | cons node rest ih => cases node <;> simp [Node.readAllAs, ih]

mutual

/-- Where white space is left out, the breaks are. -/
theorem stripped_laidOut (outer : Option String) (layout : Layout) : ∀ root : Element,
    ((root.laidOut (some layout)).readAs charset outer).stripped .strip =
      (root.readAs charset outer).stripped .strip
  | ⟨name, uri, attributes, children⟩ => by
    rcases laidOut_cases layout name uri attributes children with ⟨hsame, -⟩ | ⟨-, hlaid⟩
    · rw [hsame]
    · rw [hlaid, Element.readAs, Element.readAs, Element.stripped, Element.stripped,
        readAllAs_append, Node.strippedAll_append, strippedAll_laidOutAll _ layout.nested children]
      simp [Node.readAllAs, Node.strippedAll, strip_lineBreak]

theorem strippedAll_laidOutAll (outer : Option String) (layout : Layout) : ∀ nodes : List Node,
    Node.strippedAll .strip (Node.readAllAs charset outer (Node.laidOutAll (some layout) nodes)) =
      Node.strippedAll .strip (Node.readAllAs charset outer nodes)
  | [] => by rw [Node.laidOutAll]
  | .element child :: rest => by
    simp [Node.laidOutAll, breakNodes, Node.readAllAs, Node.strippedAll, strip_lineBreak,
      stripped_laidOut outer layout child, strippedAll_laidOutAll outer layout rest]
  | .text content :: rest => by
    simp [Node.laidOutAll, breakNodes, Node.readAllAs, Node.strippedAll, strip_lineBreak,
      strippedAll_laidOutAll outer layout rest]
  | .comment content :: rest => by
    simp [Node.laidOutAll, breakNodes, Node.readAllAs, Node.strippedAll, strip_lineBreak,
      strippedAll_laidOutAll outer layout rest]

end

end Stripped

/-- Only what is left of a document without comments and stray white space is encoded. -/
theorem run_of_stripped {options : EncodeOptions} {document document' : Document}
    (h : document.root.stripped options.whitespace = document'.root.stripped options.whitespace) :
    Encoding.run options document = Encoding.run options document' := by
  unfold Encoding.run
  rw [h]

/-! ## Documents -/

section Documents
variable {options : DecodeOptions} {document : Document}

/-- What is read of a document in UTF-8, laid out or not, by a reader of any language. -/
theorem parseDocument_of_utf8 {space : String → Prop} (utf8 : options.charset = .utf8)
    (presentable : document.root.Presentable .utf8 space) (neat : document.root.Neat .utf8)
    (declarable : options.language.Declarable) :
    ∃ bytes, writeDocument options document = .ok bytes ∧
      ∀ reader maxDepth, parseDocument reader maxDepth bytes =
        (Parsing.checkDoctype reader (doctypeData options.language)).bind fun _ =>
          if document.root.levels ≤ maxDepth then
            .ok ⟨(document.root.laidOut (Layout.of options)).readAs .utf8 none⟩
          else .error (.tooDeep maxDepth) := by
  have hnames : document.root.NamesEncodable options.charset :=
    utf8 ▸ namesEncodable_utf8 document.root
  obtain ⟨bytes, hwritten, hbytes⟩ := exists_writeDocument hnames
    fun hlatin1 => absurd (utf8.symm.trans hlatin1) nofun
  rw [utf8] at hbytes
  refine ⟨bytes, hwritten, fun reader maxDepth => ?_⟩
  have hlaid : (document.root.laidOut (Layout.of options)).PlainNames ∧
      (document.root.laidOut (Layout.of options)).Neat .utf8 ∧
        (document.root.laidOut (Layout.of options)).levels = document.root.levels := by
    have plain := plainNames_of_presentable presentable
    cases Layout.of options with
    | none =>
      rw [laidOut_none]
      exact ⟨plain, neat, rfl⟩
    | some layout =>
      exact ⟨plainNames_laidOut layout _ plain, neat_laidOut .utf8 layout _ neat,
        levels_laidOut layout _⟩
  obtain ⟨plain, hneat, hlevels⟩ := hlaid
  change bytes = _ at hbytes
  rw [hbytes, parseDocument_prolog declarable (readable_of_plain _ plain) hneat, hlevels]

/-- Pretty output is read as compact output is, but for blank texts where the document has no
text. A stream in which white space does not count is the same for both, and so is a failure. -/
theorem pretty_compact (utf8 : options.charset = .utf8)
    (presentable : document.root.Presentable .utf8 (· ≠ "")) (neat : document.root.Neat .utf8)
    (declarable : options.language.Declarable) : ∃ pretty compact,
      writeDocument { options with form := .pretty } document = .ok pretty ∧
      writeDocument { options with form := .compact } document = .ok compact ∧
      (∀ maxDepth, document.root.levels ≤ maxDepth → ∃ laid plain,
        parseDocument options.language maxDepth pretty = .ok laid ∧
        parseDocument options.language maxDepth compact = .ok plain ∧
        document.root.pruned laid.root = plain.root) ∧
      (∀ encoding : EncodeOptions, encoding.whitespace = .strip →
        encode encoding pretty = encode encoding compact) := by
  have hoptions (form : OutputForm) : ({ options with form } : DecodeOptions).charset = .utf8 := utf8
  obtain ⟨pretty, hpretty, hlaid⟩ :=
    parseDocument_of_utf8 (hoptions .pretty) presentable neat declarable
  obtain ⟨compact, hcompact, hplain⟩ :=
    parseDocument_of_utf8 (hoptions .compact) presentable neat declarable
  have hlayout : Layout.of { options with form := .pretty } = some ⟨options.indent, 0⟩ := rfl
  have hnone : Layout.of { options with form := .compact } = none := rfl
  dsimp only at hlaid hplain
  rw [hlayout] at hlaid
  rw [hnone, laidOut_none] at hplain
  have hpruned : document.root.pruned
      ((document.root.laidOut (some ⟨options.indent, 0⟩)).readAs .utf8 none) =
        document.root.readAs .utf8 none := pruned_laidOut none _ document.root
  have hstripped :
      ((document.root.laidOut (some ⟨options.indent, 0⟩)).readAs .utf8 none).stripped .strip =
        (document.root.readAs .utf8 none).stripped .strip := stripped_laidOut none _ document.root
  refine ⟨pretty, compact, hpretty, hcompact, fun maxDepth hlevels => ?_, fun encoding hstrip => ?_⟩
  · refine ⟨_, _, ?_, ?_, hpruned⟩
    · rw [hlaid, checkDoctype_doctypeData]
      exact if_pos hlevels
    · rw [hplain, checkDoctype_doctypeData]
      exact if_pos hlevels
  · unfold encode Encoding.runText
    rw [hlaid, hplain]
    cases Parsing.checkDoctype encoding.language (doctypeData options.language) with
    | error error => rfl
    | ok _ =>
      dsimp only [Except.bind]
      by_cases hlevels : document.root.levels ≤ encoding.maxDepth
      · rw [if_pos hlevels, if_pos hlevels]
        rw [← hstrip] at hstripped
        exact congrArg Outcome.result (run_of_stripped hstripped)
      · rw [if_neg hlevels, if_neg hlevels]

/-- A document with a comment, an element that holds text, and one that holds an element. -/
def nestedDocument : Document :=
  ⟨⟨"a", some "U:", [⟨"k", "v"⟩], [
    .comment "c", .element ⟨"b", none, [], [.text " t "]⟩,
    .element ⟨"d", none, [], [.element ⟨"e", some "u", [], []⟩]⟩]⟩⟩

theorem pretty_compact_nestedDocument :
    nestedDocument.root.Presentable .utf8 (· ≠ "") ∧ nestedDocument.root.Neat .utf8 ∧
      ∃ pretty compact,
        writeDocument { form := .pretty, indent := 3 } nestedDocument = .ok pretty ∧
        writeDocument { indent := 3 } nestedDocument = .ok compact ∧
        (∀ maxDepth, nestedDocument.root.levels ≤ maxDepth → ∃ laid plain,
          parseDocument ActiveSync.language maxDepth pretty = .ok laid ∧
          parseDocument ActiveSync.language maxDepth compact = .ok plain ∧
          nestedDocument.root.pruned laid.root = plain.root) ∧
        (∀ encoding : EncodeOptions, encoding.whitespace = .strip →
          encode encoding pretty = encode encoding compact) := by
  have hpresentable : nestedDocument.root.Presentable .utf8 (· ≠ "") := by
    simp [nestedDocument, Element.Presentable, Element.Every, Node.EveryAll,
      Element.tagPresentable_iff, Encodable, Charset.canEncode]
    decide
  have hneat : nestedDocument.root.Neat .utf8 := by
    simp [nestedDocument, Element.Neat, Node.NeatAll, IsComment, Charset.canEncode]
    decide
  let options : DecodeOptions := { indent := 3 }
  have hutf8 : options.charset = .utf8 := rfl
  exact ⟨hpresentable, hneat,
    pretty_compact hutf8 hpresentable hneat ActiveSync.language_declarable⟩

end Documents

end BinaryXml
