import BinaryXml.Proofs.Stream.Recognition
import BinaryXml.Proofs.Stream.Production

/-! # Documents that were read

* `Settled`: every namespace is the one of a code page with the tag, no comment is left, and texts
  are neither empty nor next to each other.
* `settled_of_stream`: a document that a stream denotes is settled, and it is nested no deeper than
  is allowed.
* `stripped_of_settled` and `readBack_of_settled`: writing and reading leave a settled document as
  it is.
-/

namespace BinaryXml

open Grammar Encoding

set_option autoImplicit false

mutual

/-- An element as it is read: its namespace has its tag, and so on inside. -/
def Settled (language : Language) (whitespace : Whitespace) : Element → Prop
  | ⟨name, uri, _, children⟩ =>
    (∀ space, uri = some space → language.HasTag space name) ∧
      SettledAll language whitespace children

/-- Nodes as they are read: no comment, no text that the policy would change, no two texts next to
each other. -/
def SettledAll (language : Language) (whitespace : Whitespace) : List Node → Prop
  | [] => True
  | .element child :: rest =>
    Settled language whitespace child ∧ SettledAll language whitespace rest
  | .text content :: rest => whitespace.apply content = some content ∧
      (∀ text, rest.head? ≠ some (.text text)) ∧ SettledAll language whitespace rest
  | .comment _ :: _ => False

end

section Settled
variable {language : Language} {whitespace : Whitespace}

theorem settledAll_element_iff {child : Element} {rest : List Node} :
    SettledAll language whitespace (.element child :: rest) ↔
      Settled language whitespace child ∧ SettledAll language whitespace rest := Iff.rfl

theorem settledAll_text_iff {content : String} {rest : List Node} :
    SettledAll language whitespace (.text content :: rest) ↔
      whitespace.apply content = some content ∧ (∀ text, rest.head? ≠ some (.text text)) ∧
        SettledAll language whitespace rest := Iff.rfl

theorem not_settledAll_comment {content : String} {rest : List Node} :
    ¬ SettledAll language whitespace (.comment content :: rest) :=
  not_false

/-- Pieces of content: texts, and elements as they are read. -/
def PiecesSettled (language : Language) (whitespace : Whitespace) (pieces : List Node) : Prop :=
  ∀ piece ∈ pieces, (∃ text, piece = .text text) ∨
    ∃ child, piece = .element child ∧ Settled language whitespace child

theorem piecesSettled_nil : PiecesSettled language whitespace [] := by
  intro piece hmem
  cases hmem

theorem PiecesSettled.consText {pieces : List Node} (h : PiecesSettled language whitespace pieces)
    (content : String) : PiecesSettled language whitespace (.text content :: pieces) := by
  intro piece hmem
  rcases List.mem_cons.mp hmem with rfl | hmem
  · exact .inl ⟨content, rfl⟩
  · exact h piece hmem

theorem PiecesSettled.consElement {child : Element} {pieces : List Node}
    (h : PiecesSettled language whitespace pieces) (hchild : Settled language whitespace child) :
    PiecesSettled language whitespace (.element child :: pieces) := by
  intro piece hmem
  rcases List.mem_cons.mp hmem with rfl | hmem
  · exact .inr ⟨child, rfl, hchild⟩
  · exact h piece hmem

/-- Pieces make up children in which no text stands next to another one. -/
theorem settledAll_of_children {pieces children : List Node}
    (made : Children whitespace pieces children)
    (h : PiecesSettled language whitespace pieces) :
    SettledAll language whitespace children ∧
      ((∀ text, pieces.head? ≠ some (.text text)) →
        ∀ text, children.head? ≠ some (.text text)) := by
  -- That no text comes first is part of the induction: it keeps a text apart from the one before.
  induction made with
  | nil =>
    rw [SettledAll]
    exact ⟨trivial, fun h => h⟩
  | @node node pieces children notText _ ih =>
    obtain ⟨hrest, -⟩ := ih fun piece hmem => h piece (List.mem_cons_of_mem _ hmem)
    rcases h node List.mem_cons_self with ⟨text, rfl⟩ | ⟨child, rfl, hchild⟩
    · exact absurd rfl (notText text)
    · rw [settledAll_element_iff]
      exact ⟨⟨hchild, hrest⟩, by simp⟩
  | @texts run pieces children nonempty whole _ ih =>
    obtain ⟨hrest, hhead⟩ := ih fun piece hmem => h piece (List.mem_append_right _ hmem)
    refine ⟨?_, fun hnone => ?_⟩
    · cases hkept : whitespace.apply (String.join run) with
      | none => exact hrest
      | some kept =>
        rw [Option.toList_some, List.map_singleton, List.singleton_append, settledAll_text_iff]
        exact ⟨(Whitespace.apply_of_apply hkept).2, hhead whole, hrest⟩
    · cases run with
      | nil => exact absurd rfl nonempty
      | cons first run => exact absurd rfl (hnone first)

/-! ## What a stream denotes -/

variable {context : Decoding.Context}

/-- A head has no children yet, and a namespace has the tag. -/
theorem head_eq {depth : Nat} {pages next : Pages} {token : UInt8} {front : Bytes}
    {head : Element} (h : Head context depth pages token front head next) :
    depth ≤ context.maxDepth ∧ ∃ name uri list, head = ⟨name, uri, list, []⟩ ∧
      ∀ space, uri = some space → context.language.HasTag space name := by
  cases h with
  | mk deep tag attributes =>
    refine ⟨deep, _, _, _, rfl, fun space hspace => ?_⟩
    cases tag with
    | literal => cases hspace
    | registered base found => exact Language.hasTag_of_tagName? found hspace

theorem levelsAll_of_children {pieces children : List Node}
    (made : Children whitespace pieces children) :
    Node.levelsAll children = Node.levelsAll pieces := by
  have htexts (run : List String) (rest : List Node) :
      Node.levelsAll (run.map .text ++ rest) = Node.levelsAll rest := by
    induction run with
    | nil => rfl
    | cons first run ih => simpa only [List.map_cons, List.cons_append, Node.levelsAll] using ih
  induction made with
  | nil => rfl
  | @node node pieces children notText _ ih =>
    cases node with
    | element child => rw [Node.levelsAll_element, Node.levelsAll_element, ih]
    | text content => exact absurd rfl (notText content)
    | comment content => simpa only [Node.levelsAll] using ih
  | texts _ _ _ ih => rw [htexts, htexts, ih]

/-- Children that pieces make up complete a head. -/
theorem settled_of_head {depth : Nat} {pages next : Pages} {token : UInt8} {front : Bytes}
    {head : Element} {pieces children : List Node}
    (start : Head context depth pages token front head next)
    (made : Children context.whitespace pieces children)
    (h : PiecesSettled context.language context.whitespace pieces) :
    Settled context.language context.whitespace { head with children } ∧
      ({ head with children } : Element).levels = Node.levelsAll pieces + 1 := by
  obtain ⟨-, name, uri, list, rfl, htag⟩ := head_eq start
  constructor
  · rw [Settled]
    exact ⟨htag, (settledAll_of_children made h).1⟩
  · rw [Element.levels_mk, levelsAll_of_children made]

theorem head_children {depth : Nat} {pages next : Pages} {token : UInt8} {front : Bytes}
    {head : Element} (start : Head context depth pages token front head next) :
    head = { head with children := [] } := by
  obtain ⟨-, name, uri, list, rfl, -⟩ := head_eq start
  rfl

/-- The pieces of content hold settled elements, nested no deeper than is allowed. -/
theorem settled_of_content {depth : Nat} {pages last : Pages} {bytes : Bytes} {pieces : List Node}
    (h : Content context depth pages bytes pieces last) (hdepth : depth ≤ context.maxDepth) :
    PiecesSettled context.language context.whitespace pieces ∧
      depth + Node.levelsAll pieces ≤ context.maxDepth := by
  -- On the derivation, with two cases for a child: without content and with it.
  induction h with
  | finish =>
    rw [Node.levelsAll]
    exact ⟨piecesSettled_nil, hdepth⟩
  | switchPage _ ih => exact ih hdepth
  | string first _ ih =>
    obtain ⟨hpieces, hlevels⟩ := ih hdepth
    rw [Node.levelsAll]
    exact ⟨hpieces.consText _, hlevels⟩
  | empty start _ _ ih =>
    obtain ⟨hpieces, hlevels⟩ := ih hdepth
    obtain ⟨hsettled, hheight⟩ := settled_of_head start .nil piecesSettled_nil
    have hdeep := (head_eq start).1
    rw [head_children start, Node.levelsAll_element, hheight, Node.levelsAll]
    exact ⟨hpieces.consElement hsettled, by omega⟩
  | nested start _ _ made _ ihContent ih =>
    obtain ⟨hpieces, hlevels⟩ := ih hdepth
    obtain ⟨hparts, hinner⟩ := ihContent (head_eq start).1
    obtain ⟨hsettled, hheight⟩ := settled_of_head start made hparts
    rw [Node.levelsAll_element, hheight]
    exact ⟨hpieces.consElement hsettled, by omega⟩

theorem settled_of_isElement {depth : Nat} {pages last : Pages} {bytes : Bytes} {root : Element}
    (h : IsElement context depth pages bytes root last) :
    Settled context.language context.whitespace root ∧
      depth + root.levels ≤ context.maxDepth + 1 := by
  cases h with
  | empty start _ =>
    obtain ⟨hsettled, hheight⟩ := settled_of_head start .nil piecesSettled_nil
    have hdeep := (head_eq start).1
    rw [head_children start, hheight, Node.levelsAll]
    exact ⟨hsettled, by omega⟩
  | nested start _ content made =>
    obtain ⟨hparts, hinner⟩ := settled_of_content content (head_eq start).1
    obtain ⟨hsettled, hheight⟩ := settled_of_head start made hparts
    rw [hheight]
    exact ⟨hsettled, by omega⟩

theorem settled_of_body {page : UInt8} {bytes : Bytes} {root : Element}
    (h : Body context page bytes root) :
    Settled context.language context.whitespace root ∧ root.levels ≤ context.maxDepth := by
  induction h with
  | switchPage _ ih => exact ih
  | root element =>
    obtain ⟨hsettled, hlevels⟩ := settled_of_isElement element
    exact ⟨hsettled, by omega⟩

/-- A document that a stream denotes is settled, and nested no deeper than is allowed. -/
theorem settled_of_stream {options : DecodeOptions} {stream : Bytes} {document : Document}
    (h : Stream options stream document) :
    Settled options.language options.whitespace document.root ∧
      document.root.levels ≤ options.maxDepth := by
  cases h with
  | mk _ body => exact settled_of_body body

/-! ## What is left as it is -/

mutual

/-- Nothing of a settled element is left out when it is written with its white space. -/
theorem stripped_of_settled : ∀ root : Element, Settled language whitespace root →
    root.stripped .preserve = root
  | ⟨_, _, _, children⟩, h => by
    rw [Settled] at h
    rw [Element.stripped, strippedAll_of_settled children h.2]

theorem strippedAll_of_settled : ∀ nodes : List Node, SettledAll language whitespace nodes →
    Node.strippedAll .preserve nodes = nodes
  | [], _ => rfl
  | .element child :: rest, h => by
    rw [settledAll_element_iff] at h
    rw [Node.strippedAll, stripped_of_settled child h.1, strippedAll_of_settled rest h.2]
  | .text content :: rest, h => by
    rw [settledAll_text_iff] at h
    have hne := (Whitespace.apply_of_apply h.1).1
    rw [Node.strippedAll, Whitespace.preserve_apply_iff.mpr ⟨hne, rfl⟩]
    dsimp only
    rw [strippedAll_of_settled rest h.2.2]
  | .comment content :: rest, h => (not_settledAll_comment h).elim

end

/-- Settled nodes are the children that they make up as pieces. -/
theorem children_of_settled {nodes : List Node} (h : SettledAll language whitespace nodes) :
    Children whitespace nodes nodes := by
  induction nodes with
  | nil => exact .nil
  | cons node rest ih =>
    cases node with
    | element child =>
      rw [settledAll_element_iff] at h
      exact .node (by simp) (ih h.2)
    | text content =>
      rw [settledAll_text_iff] at h
      obtain ⟨hkept, hhead, hrest⟩ := h
      have hrun : Children whitespace ([content].map .text ++ rest)
          ((whitespace.apply (String.join [content])).toList.map .text ++ rest) :=
        .texts (by simp) hhead (ih hrest)
      have hjoin : String.join [content] = content := by simp [String.join]
      rwa [hjoin, hkept] at hrun
    | comment content => exact (not_settledAll_comment h).elim

mutual

/-- Every element without a namespace has a name that is no tag. -/
def LiteralsUnknown (language : Language) : Element → Prop
  | ⟨name, uri, _, children⟩ =>
    (uri = none → language.Unknown name) ∧ LiteralsUnknownAll language children

def LiteralsUnknownAll (language : Language) : List Node → Prop
  | [] => True
  | .element child :: rest => LiteralsUnknown language child ∧ LiteralsUnknownAll language rest
  | .text _ :: rest => LiteralsUnknownAll language rest
  | .comment _ :: rest => LiteralsUnknownAll language rest

end

theorem uri_of_tagCode? (regular : language.Regular) (distinct : language.Distinct) {name : String}
    {uri : Option String} (htag : ∀ space, uri = some space → language.HasTag space name)
    (hunknown : uri = none → language.Unknown name) (page : UInt8) :
    ((language.tagCode? uri name page).bind fun code => language.uri? code.page) = uri := by
  cases uri with
  | none => rw [Language.tagCode?_of_unknown (hunknown rfl), Option.bind_none]
  | some space =>
    obtain ⟨code, hcode, huri⟩ := Language.tagCode?_of_hasTag regular distinct (htag space rfl) page
    rw [hcode, Option.bind_some, huri]

mutual

theorem readBack_of_settled (regular : language.Regular) (distinct : language.Distinct) :
    ∀ (root : Element) (page : UInt8), Settled language whitespace root →
      LiteralsUnknown language root → (readBack language whitespace page root).1 = root
  | ⟨name, uri, attributes, children⟩, page, h, hliterals => by
    rw [Settled] at h
    rw [LiteralsUnknown] at hliterals
    have hmade := Decoding.children_iff.mp (children_of_settled h.2)
    rw [readBack]
    simp only [uri_of_tagCode? regular distinct h.1 hliterals.1,
      readBackAll_of_settled regular distinct children _ h.2 hliterals.2, ← hmade]

theorem readBackAll_of_settled (regular : language.Regular) (distinct : language.Distinct) :
    ∀ (nodes : List Node) (page : UInt8), SettledAll language whitespace nodes →
      LiteralsUnknownAll language nodes → (readBackAll language whitespace page nodes).1 = nodes
  | [], _, _, _ => rfl
  | .element child :: rest, page, h, hliterals => by
    rw [settledAll_element_iff] at h
    rw [LiteralsUnknownAll] at hliterals
    rw [readBackAll]
    simp only [readBack_of_settled regular distinct child page h.1 hliterals.1,
      readBackAll_of_settled regular distinct rest _ h.2 hliterals.2]
  | .text content :: rest, page, h, hliterals => by
    rw [settledAll_text_iff] at h
    rw [LiteralsUnknownAll] at hliterals
    rw [readBackAll]
    simp only [readBackAll_of_settled regular distinct rest page h.2.2 hliterals]
  | .comment content :: rest, _, h, _ => (not_settledAll_comment h).elim

end

end Settled

end BinaryXml
