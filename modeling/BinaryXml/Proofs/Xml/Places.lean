import BinaryXml.Proofs.Document.Paths
import BinaryXml.Proofs.Xml.Locality
import BinaryXml.Proofs.Xml.Tags

/-! # Places of elements in an XML text

* `Parsing.Fills`: bytes that are one element in front of others.
* `Parsing.HasPlace`: other bytes may stand in the place of an element, and what is read changes
  there and nowhere else.
* `exists_place`: every element of a document has a place in its text.
-/

namespace BinaryXml

open Parsing

set_option autoImplicit false

namespace Parsing

/-! ## Places -/

/-- Bytes that are one element in front of others, if anything is read there. -/
structure Fills (context : Context) (scope : Scope) (depth : Nat) (bytes back : Bytes) : Prop where
  bracket : bytes.head? = some 0x3C
  starts : ∃ piece rest, Starts (bytes ++ back) piece rest ∧ startsElement piece = true
  ends : ∀ element behind, IsElement context scope depth (bytes ++ back) element behind →
    behind = back

/-- What is read of a text depends on the bytes between `front` and `back` only in the element that
is read there. -/
def Encloses {α : Type} (context : Context) (scope : Scope) (depth : Nat) (front back : Bytes)
    (reads : Bytes → α → Prop) (put : Element → α) : Prop :=
  ∀ bytes, Fills context scope depth bytes back → ∀ result, reads (front ++ (bytes ++ back)) result ↔
    ∃ element, IsElement context scope depth (bytes ++ back) element back ∧ result = put element

/-- An element stands in a text, and others may stand there. -/
def HasPlace {α : Type} (context : Context) (text : Bytes) (reads : Bytes → α → Prop)
    (element : Element) (put : Element → α) : Prop :=
  ∃ scope depth front bytes back, text = front ++ (bytes ++ back) ∧ bytes.head? = some 0x3C ∧
    IsElement context scope depth (bytes ++ back) element back ∧
      Encloses context scope depth front back reads put

section Lift
variable {α β : Type} {context : Context} {rest : Bytes} {reads : Bytes → α → Prop}
  {reads' : Bytes → β → Prop} {element : Element} {put : Element → α} {put' : Element → β}

/-- A place stays one behind bytes that are read on their own. -/
theorem HasPlace.lift (h : HasPlace context rest reads' element put') (first : Bytes)
    (follows : β → α → Prop)
    (hstep : ∀ tail, tail.head? = rest.head? → ∀ result,
      reads (first ++ tail) result ↔ ∃ inner, reads' tail inner ∧ follows inner result)
    (hput : ∀ new result, follows (put' new) result ↔ result = put new) :
    HasPlace context (first ++ rest) reads element put := by
  obtain ⟨scope, depth, front, bytes, back, rfl, hbracket, isElement, encloses⟩ := h
  refine ⟨scope, depth, first ++ front, bytes, back, by rw [List.append_assoc], hbracket, isElement,
    fun other fills result => ?_⟩
  have hhead : (front ++ (other ++ back)).head? = (front ++ (bytes ++ back)).head? := by
    cases front with
    | nil =>
      obtain ⟨inner, rfl⟩ := List.head?_eq_some_iff.mp hbracket
      obtain ⟨inner', rfl⟩ := List.head?_eq_some_iff.mp fills.bracket
      rfl
    | cons b front => rfl
  rw [List.append_assoc, hstep _ hhead]
  constructor
  · rintro ⟨inner, hinner, hfollows⟩
    obtain ⟨new, hnew, rfl⟩ := (encloses other fills inner).mp hinner
    exact ⟨new, hnew, (hput new result).mp hfollows⟩
  · rintro ⟨new, hnew, rfl⟩
    exact ⟨put' new, (encloses other fills _).mpr ⟨new, hnew, rfl⟩, (hput new _).mpr rfl⟩

end Lift

/-! ## Places in content -/

section Content
variable {context : Context} {scope inner : Scope} {depth : Nat} {opened : Open}
  {text rest last : Bytes} {nodes : List Node}

/-- The rules leave no choice. -/
theorem content_unique {nodes' : List Node} {last' : Bytes}
    (h : Content context scope depth opened text nodes last)
    (h' : Content context scope depth opened text nodes' last') : nodes' = nodes ∧ last' = last := by
  have hread := (content_eq_ok_iff text.length (Nat.le_refl _)).mpr h
  have hread' := (content_eq_ok_iff text.length (Nat.le_refl _)).mpr h'
  cases hread.symm.trans hread'
  exact ⟨rfl, rfl⟩

/-- An element whose start tag is read. -/
theorem isElement_tag_iff {tag : Tag} {head element : Element} {behind : Bytes}
    (starts : Starts text (.opening tag) rest) (bindings : innerScope scope tag = .ok inner)
    (start : startTag context inner depth tag = .ok head) :
    IsElement context scope depth text element behind ↔ ∃ pieces,
      Content context inner (depth + 1) ⟨tag.name, head.name⟩ rest pieces behind ∧
        element = close head pieces := by
  rw [isElement_opening_iff starts]
  constructor
  · rintro ⟨inner', head', pieces, hinner, hhead, hpieces, rfl⟩
    cases bindings.symm.trans hinner
    cases start.symm.trans hhead
    exact ⟨pieces, hpieces, rfl⟩
  · rintro ⟨pieces, hpieces, rfl⟩
    exact ⟨inner, head, pieces, bindings, start, hpieces, rfl⟩

theorem isElement_unique {element element' : Element} {last' : Bytes}
    (h : IsElement context scope depth text element last)
    (h' : IsElement context scope depth text element' last') : element' = element ∧ last' = last := by
  cases h with
  | empty starts bindings start =>
    obtain ⟨rfl, inner', hinner, hstart⟩ := (isElement_empty_iff starts).mp h'
    cases bindings.symm.trans hinner
    cases start.symm.trans hstart
    exact ⟨rfl, rfl⟩
  | opening starts bindings start content =>
    obtain ⟨pieces, hpieces, rfl⟩ := (isElement_tag_iff starts bindings start).mp h'
    obtain ⟨rfl, rfl⟩ := content_unique content hpieces
    exact ⟨rfl, rfl⟩

theorem IsElement.bracket {element : Element}
    (h : IsElement context scope depth text element last) : text.head? = some 0x3C := by
  obtain ⟨piece, rest, ⟨hne, hnext⟩, htag⟩ := h.starts
  obtain ⟨b, text, rfl⟩ := List.exists_cons_of_ne_nil hne
  have hshape := Markup.next_shape hnext
  generalize b :: text = bytes at hshape
  cases hshape with
  | tag => rfl
  | closing => rfl
  | bracket => rfl
  | plain _ other => cases piece <;> cases other <;> cases htag

/-- The place of an element at the start of a text, where what follows it is known. -/
theorem hasPlace_here {α : Type} {reads : Bytes → α → Prop} {follows : Element → Bytes → α → Prop}
    {element : Element} {put : Element → α}
    (isElement : IsElement context scope depth text element rest)
    (hstep : ∀ text piece behind, Starts text piece behind → startsElement piece = true →
      ∀ result, reads text result ↔ ∃ element behind,
        IsElement context scope depth text element behind ∧ follows element behind result)
    (hput : ∀ new result, follows new rest result ↔ result = put new) :
    HasPlace context text reads element put := by
  obtain ⟨bytes, hne, rfl, hfront⟩ := isElement_front isElement
  have hbracket : bytes.head? = some 0x3C := by
    have hhead := isElement.bracket
    obtain ⟨b, bytes, rfl⟩ := List.exists_cons_of_ne_nil hne
    exact hhead
  refine ⟨scope, depth, [], bytes, rest, rfl, hbracket, isElement, fun other fills result => ?_⟩
  obtain ⟨piece, behind, starts, htag⟩ := fills.starts
  rw [List.nil_append, hstep _ piece behind starts htag]
  constructor
  · rintro ⟨new, behind, hnew, hfollows⟩
    obtain rfl := fills.ends new behind hnew
    exact ⟨new, hnew, (hput new result).mp hfollows⟩
  · rintro ⟨new, hnew, rfl⟩
    exact ⟨new, rest, hnew, (hput new _).mpr rfl⟩

/-- Nodes that are read with what follows them. -/
abbrev ReadsContent (context : Context) (scope : Scope) (depth : Nat) (opened : Open) (text : Bytes)
    (found : List Node × Bytes) : Prop :=
  Content context scope depth opened text found.1 found.2

/-- The nodes with another element at the end of a path. -/
abbrev putIn (nodes : List Node) (last : Bytes) (index : Nat) (path : List Nat) (new : Element) :
    List Node × Bytes :=
  (Node.updateAt (Element.update (fun _ => new) path) index nodes, last)

/-- An element whose start tag comes first has a place, and so has every element inside, if the
elements in its content have. -/
theorem hasPlace_opening {α : Type} {reads : Bytes → α → Prop}
    {follows : Element → Bytes → α → Prop} {put : Element → α} {tag : Tag} {head element : Element}
    {behind : Bytes} {pieces : List Node} {path : List Nat}
    (starts : Starts text (.opening tag) behind) (bindings : innerScope scope tag = .ok inner)
    (start : startTag context inner depth tag = .ok head)
    (content : Content context inner (depth + 1) ⟨tag.name, head.name⟩ behind pieces rest)
    (hinside : ∀ {index : Nat} {path : List Nat} {child : Element},
      (Node.elements pieces)[index]? = some child → child.at? path = some element →
        HasPlace context behind (ReadsContent context inner (depth + 1) ⟨tag.name, head.name⟩)
          element (putIn pieces rest index path))
    (hat : (close head pieces).at? path = some element)
    (hstep : ∀ text piece behind, Starts text piece behind → startsElement piece = true →
      ∀ result, reads text result ↔ ∃ element behind,
        IsElement context scope depth text element behind ∧ follows element behind result)
    (hput : ∀ new result, follows new rest result ↔ result = put new) :
    HasPlace context text reads element fun new =>
      put ((close head pieces).update (fun _ => new) path) := by
  cases path with
  | nil =>
    cases hat
    exact hasPlace_here (.opening starts bindings start content) hstep hput
  | cons index path =>
    rw [Element.at?_cons, close, Node.elements_coalesce] at hat
    obtain ⟨child, hchild, hat⟩ := Option.bind_eq_some_iff.mp hat
    obtain ⟨first, -, rfl, hfirst⟩ := starts.front_of_tag rfl
    refine (hinside hchild hat).lift first
      (fun found result => follows (close head found.1) found.2 result)
      (fun tail _ result => ?_) fun new result => ?_
    · rw [hstep _ _ _ (hfirst tail) rfl]
      simp only [isElement_tag_iff (hfirst tail) bindings start]
      constructor
      · rintro ⟨_, behind, ⟨pieces, hpieces, rfl⟩, hfollows⟩
        exact ⟨(pieces, behind), hpieces, hfollows⟩
      · rintro ⟨found, hfound, hfollows⟩
        exact ⟨_, found.2, ⟨found.1, hfound, rfl⟩, hfollows⟩
    · have hclose : close head (putIn pieces rest index path new).1 =
          (close head pieces).update (fun _ => new) (index :: path) := by
        rw [putIn, Element.update_cons, close, close, Node.coalesce_updateAt]
      dsimp only
      rw [hclose, hput]

theorem hasPlace_empty {α : Type} {reads : Bytes → α → Prop} {follows : Element → Bytes → α → Prop}
    {put : Element → α} {tag : Tag} {root element : Element} {path : List Nat}
    (starts : Starts text (.empty tag) rest) (bindings : innerScope scope tag = .ok inner)
    (start : startTag context inner depth tag = .ok root) (hat : root.at? path = some element)
    (hstep : ∀ text piece behind, Starts text piece behind → startsElement piece = true →
      ∀ result, reads text result ↔ ∃ element behind,
        IsElement context scope depth text element behind ∧ follows element behind result)
    (hput : ∀ new result, follows new rest result ↔ result = put new) :
    HasPlace context text reads element fun new => put (root.update (fun _ => new) path) := by
  cases path with
  | nil =>
    cases hat
    exact hasPlace_here (.empty starts bindings start) hstep hput
  | cons index path =>
    obtain ⟨-, name, uri, list, -, -, -, -, rfl⟩ := startTag_eq_ok_iff.mp start
    cases hat

/-! ## Places among nodes -/

theorem content_step (text : Bytes) (piece : Markup) (behind : Bytes)
    (starts : Starts text piece behind) (htag : startsElement piece = true)
    (found : List Node × Bytes) : ReadsContent context scope depth opened text found ↔
      ∃ element behind, IsElement context scope depth text element behind ∧
        ∃ others, found.1 = .element element :: others ∧
          Content context scope depth opened behind others found.2 := by
  refine (content_element_iff starts htag).trans ?_
  constructor
  · rintro ⟨new, behind, others, hnew, hnodes, hothers⟩
    exact ⟨new, behind, hnew, others, hnodes, hothers⟩
  · rintro ⟨new, behind, hnew, others, hnodes, hothers⟩
    exact ⟨new, behind, others, hnew, hnodes, hothers⟩

theorem content_put (others : Content context scope depth opened rest nodes last) (new : Element)
    (found : List Node × Bytes) : (∃ others, found.1 = .element new :: others ∧
      Content context scope depth opened rest others found.2) ↔
        found = (.element new :: nodes, last) := by
  obtain ⟨found, behind⟩ := found
  constructor
  · rintro ⟨found, rfl, hfound⟩
    obtain ⟨rfl, rfl⟩ := content_unique others hfound
    rfl
  · rintro ⟨⟩
    exact ⟨nodes, rfl, others⟩

theorem HasPlace.behind {element : Element} {index index' : Nat} {path : List Nat}
    (front : List Node) {first : Bytes}
    (h : HasPlace context rest (ReadsContent context scope depth opened) element
      (putIn nodes last index' path))
    (hstep : ∀ tail, tail.head? = rest.head? → ∀ nodes last,
      Content context scope depth opened (first ++ tail) nodes last ↔
        ∃ others, nodes = front ++ others ∧ Content context scope depth opened tail others last)
    (hindex : ∀ change, Node.updateAt change index (front ++ nodes) =
      front ++ Node.updateAt change index' nodes) :
    HasPlace context (first ++ rest) (ReadsContent context scope depth opened) element
      (putIn (front ++ nodes) last index path) := by
  refine h.lift first (fun inner found => found = (front ++ inner.1, inner.2))
    (fun tail hhead found => ?_) fun new found => ?_
  · refine (hstep tail hhead _ _).trans ?_
    constructor
    · rintro ⟨others, hnodes, hothers⟩
      exact ⟨(others, found.2), hothers, Prod.ext hnodes rfl⟩
    · rintro ⟨inner, hinner, rfl⟩
      exact ⟨inner.1, rfl, hinner⟩
  · rw [putIn, putIn, hindex]

theorem HasPlace.behindElement {root element : Element} {index : Nat} {path : List Nat}
    (isElement : IsElement context scope depth text root rest)
    (h : HasPlace context rest (ReadsContent context scope depth opened) element
      (putIn nodes last index path)) :
    HasPlace context text (ReadsContent context scope depth opened) element
      (putIn (.element root :: nodes) last (index + 1) path) := by
  obtain ⟨bytes, -, rfl, hfront⟩ := isElement_front isElement
  refine HasPlace.behind [.element root] h (fun tail _ nodes last => ?_)
    fun change => Node.updateAt_succ root nodes
  obtain ⟨piece, behind, starts, htag⟩ := (hfront tail).starts
  refine (content_element_iff starts htag).trans ?_
  constructor
  · rintro ⟨new, behind, others, hnew, hnodes, hothers⟩
    obtain ⟨rfl, rfl⟩ := isElement_unique (hfront tail) hnew
    exact ⟨others, hnodes, hothers⟩
  · rintro ⟨others, hnodes, hothers⟩
    exact ⟨root, tail, others, hfront tail, hnodes, hothers⟩

/-- Every element among some nodes has a place, and so has every element inside. -/
theorem hasPlace_of_content (h : Content context scope depth opened text nodes last) {index : Nat}
    {path : List Nat} {child element : Element} (hchild : (Node.elements nodes)[index]? = some child)
    (hat : child.at? path = some element) :
    HasPlace context text (ReadsContent context scope depth opened) element
      (putIn nodes last index path) := by
  -- On the content in front of the child: what comes before it is read on its own, and the child is
  -- the first element or a later one.
  induction h generalizing index path child with
  | @leaf _ _ _ _ _ _ _ node nodes starts single others ih =>
    have hnode : ∀ child, node ≠ .element child := by
      rintro child rfl
      exact leaf?_ne_element child single
    have hothers : Node.elements (node :: nodes) = Node.elements nodes := by
      cases node with
      | element child => exact absurd rfl (hnode child)
      | text content => rfl
      | comment content => rfl
    rw [hothers] at hchild
    obtain ⟨first, -, rfl, hfront⟩ := starts.front
    refine HasPlace.behind [node] (ih hchild hat) (fun tail hhead nodes last => ?_)
      fun change => Node.updateAt_of_ne hnode nodes
    refine (content_leaf_iff (hfront tail hhead) single).trans ?_
    constructor
    · rintro ⟨_, others, ⟨⟩, hnodes, hothers⟩
      exact ⟨others, hnodes, hothers⟩
    · rintro ⟨others, hnodes, hothers⟩
      exact ⟨node, others, rfl, hnodes, hothers⟩
  | declaration starts others ih =>
    obtain ⟨first, -, rfl, hfront⟩ := starts.front
    refine HasPlace.behind [] (ih hchild hat) (fun tail hhead nodes last => ?_)
      fun change => rfl
    refine (content_declaration_iff (hfront tail hhead)).trans ?_
    constructor
    · intro h
      exact ⟨nodes, rfl, h⟩
    · rintro ⟨others, rfl, h⟩
      exact h
  | closing starts => cases hchild
  | empty starts bindings start others ih =>
    cases index with
    | zero =>
      cases hchild
      exact hasPlace_empty starts bindings start hat content_step (content_put others)
    | succ index => exact (ih hchild hat).behindElement (.empty starts bindings start)
  | opening starts bindings start content others ihContent ih =>
    cases index with
    | zero =>
      cases hchild
      exact hasPlace_opening starts bindings start content ihContent hat content_step
        (content_put others)
    | succ index => exact (ih hchild hat).behindElement (.opening starts bindings start content)

end Content

/-! ## Places in a document -/

section Outside
variable {context : Context} {text : Bytes}

/-- What stands behind the outermost element does not depend on it. -/
theorem outside_found {root found : Element} (h : Outside context (some root) text found)
    (other : Element) : Outside context (some other) text other := by
  generalize hroot : some root = start at h
  induction h with
  | finish => exact .finish
  | blank starts characters blank _ ih => exact .blank starts characters blank (ih hroot)
  | passed starts passed _ ih => exact .passed starts passed (ih hroot)
  | doctype => cases hroot
  | root => cases hroot

theorem HasPlace.passed {piece : Markup} {rest : Bytes} {element : Element}
    {put : Element → Element} (starts : Starts text piece rest)
    (h : HasPlace context rest (Outside context none) element put)
    (hstep : ∀ {text rest : Bytes} {result : Element}, Starts text piece rest →
      (Outside context none text result ↔ Outside context none rest result)) :
    HasPlace context text (Outside context none) element put := by
  obtain ⟨first, -, rfl, hfront⟩ := starts.front
  refine h.lift first (fun inner result => result = inner) (fun tail hhead result => ?_)
    fun new result => Iff.rfl
  rw [hstep (hfront tail hhead)]
  constructor
  · intro h
    exact ⟨result, h, rfl⟩
  · rintro ⟨_, h, rfl⟩
    exact h

/-- Every element of a document has a place. -/
theorem hasPlace_of_outside {root element : Element} {path : List Nat}
    (h : Outside context none text root) (hat : root.at? path = some element) :
    HasPlace context text (Outside context none) element
      fun new => root.update (fun _ => new) path := by
  generalize hstart : (none : Option Element) = start at h
  -- On what stands around the root: the pieces in front of it are passed one by one.
  induction h with
  | finish => cases hstart
  | blank starts characters blank _ ih =>
    subst hstart
    refine (ih hat rfl).passed starts fun starts => ?_
    rw [outside_characters_iff starts characters]
    constructor
    · rintro ⟨_, ⟨⟩, -, h⟩
      exact h
    · intro h
      exact ⟨_, rfl, blank, h⟩
  | passed starts passed _ ih =>
    subst hstart
    exact (ih hat rfl).passed starts fun starts => outside_passed_iff starts passed
  | doctype starts checked _ ih =>
    refine (ih hat rfl).passed starts fun starts => ?_
    rw [outside_doctype_iff starts]
    constructor
    · rintro ⟨-, -, h⟩
      exact h
    · intro h
      exact ⟨rfl, checked, h⟩
  | @root _ rest _ _ isElement others =>
    obtain rfl := eq_of_outside others
    have hstep (text : Bytes) (piece : Markup) (behind : Bytes) (starts : Starts text piece behind)
        (htag : startsElement piece = true) (result : Element) : Outside context none text result ↔
          ∃ found behind, IsElement context Scope.initial 0 text found behind ∧
            Outside context (some found) behind result := by
      rw [outside_element_iff starts htag]
      exact and_iff_right rfl
    have hput (new result : Element) : Outside context (some new) rest result ↔ result = new := by
      constructor
      · exact eq_of_outside
      · rintro rfl
        exact outside_found others _
    cases isElement with
    | empty starts bindings start => exact hasPlace_empty starts bindings start hat hstep hput
    | opening starts bindings start content =>
      exact hasPlace_opening starts bindings start content
        (fun hchild hat => hasPlace_of_content content hchild hat) hat hstep hput

end Outside

end Parsing

/-! ## Places in a text -/

/-- The mark of the encoding is in front of the first bracket, or it is missing. -/
theorem after_byteOrderMark {front back back' : Bytes}
    (h : Markup.after byteOrderMark (front ++ 0x3C :: back) = none) :
    Markup.after byteOrderMark (front ++ 0x3C :: back') = none := by
  have hmark : byteOrderMark.isPrefixOf (front ++ 0x3C :: back) =
      byteOrderMark.isPrefixOf (front ++ 0x3C :: back') := by
    match front with
    | [] => rfl
    | [a] => simp [byteOrderMark, List.isPrefixOf]
    | [a, b] => simp [byteOrderMark, List.isPrefixOf]
    | a :: b :: c :: rest => simp [byteOrderMark, List.isPrefixOf]
  unfold Markup.after at h ⊢
  rw [hmark] at h
  split at h
  · cases h
  · rename_i hnone
    rw [if_neg hnone]

/-- Every element of a document that is read has a place in its text. -/
theorem exists_place {language : Language} {maxDepth : Nat} {text : Bytes} {document : Document}
    {path : List Nat} {element : Element} (h : parseDocument language maxDepth text = .ok document)
    (hat : document.root.at? path = some element) :
    HasPlace ⟨language, maxDepth⟩ text
      (fun text document => parseDocument language maxDepth text = .ok document) element
        fun new => ⟨document.root.update (fun _ => new) path⟩ := by
  have houtside := parseDocument_eq_ok_iff.mp h
  have hplace := hasPlace_of_outside houtside hat
  cases hmark : Markup.after byteOrderMark text with
  | some rest =>
    rw [hmark, Option.getD_some] at hplace
    rw [Markup.after_eq_some hmark]
    refine hplace.lift byteOrderMark (fun root result => result = ⟨root⟩)
      (fun tail _ result => ?_) fun new result => Iff.rfl
    rw [parseDocument_eq_ok_iff, Markup.after_front, Option.getD_some]
    constructor
    · intro hread
      exact ⟨result.root, hread, rfl⟩
    · rintro ⟨root, hread, rfl⟩
      exact hread
  | none =>
    rw [hmark, Option.getD_none] at hplace
    obtain ⟨scope, depth, front, bytes, back, rfl, hbracket, isElement, encloses⟩ := hplace
    refine ⟨scope, depth, front, bytes, back, rfl, hbracket, isElement, fun other fills result => ?_⟩
    have hother : Markup.after byteOrderMark (front ++ (other ++ back)) = none := by
      obtain ⟨inner, rfl⟩ := List.head?_eq_some_iff.mp hbracket
      obtain ⟨inner', hinner'⟩ := List.head?_eq_some_iff.mp fills.bracket
      rw [hinner']
      exact after_byteOrderMark hmark
    dsimp only
    rw [parseDocument_eq_ok_iff, hother, Option.getD_none, encloses other fills]
    constructor
    · rintro ⟨new, hnew, hroot⟩
      exact ⟨new, hnew, congrArg Document.mk hroot⟩
    · rintro ⟨new, hnew, rfl⟩
      exact ⟨new, hnew, rfl⟩

end BinaryXml
