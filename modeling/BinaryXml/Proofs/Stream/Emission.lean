import BinaryXml.Proofs.Stream.Canonical
import BinaryXml.Proofs.Stream.Places

/-! # What is written inside an element

* `EmitsAt`: the tokens of an element, split around the ones that are written inside the element at
  the end of a path.
* `exists_emitsAt`: there is such a split for every path to an element.
* `WritesAt`: the same for a whole stream.
* `behind_of_writesAt`: what is written there is what the encoder chooses for that element.
-/

namespace BinaryXml

set_option autoImplicit false

/-! ## Elements that are found -/

theorem Node.exists_of_getElem?_elements {child : Element} : ∀ {nodes : List Node} {index : Nat},
    (Node.elements nodes)[index]? = some child → ∃ before behind,
      nodes = before ++ .element child :: behind ∧ (Node.elements before).length = index
  | [], _, h => by cases h
  | .element first :: rest, 0, h => by
    cases h
    exact ⟨[], rest, rfl, rfl⟩
  | .element first :: rest, index + 1, h => by
    obtain ⟨before, behind, rfl, rfl⟩ := @Node.exists_of_getElem?_elements child rest _ h
    exact ⟨.element first :: before, behind, rfl, rfl⟩
  | .text content :: rest, index, h => by
    obtain ⟨before, behind, rfl, rfl⟩ := @Node.exists_of_getElem?_elements child rest _ h
    exact ⟨.text content :: before, behind, rfl, rfl⟩
  | .comment content :: rest, index, h => by
    obtain ⟨before, behind, rfl, rfl⟩ := @Node.exists_of_getElem?_elements child rest _ h
    exact ⟨.comment content :: before, behind, rfl, rfl⟩

theorem Node.elements_strippedAll (whitespace : Whitespace) (nodes : List Node) :
    Node.elements (Node.strippedAll whitespace nodes) =
      (Node.elements nodes).map (Element.stripped whitespace) := by
  induction nodes with
  | nil => rfl
  | cons node rest ih =>
    cases node with
    | element child =>
      rw [Node.strippedAll, Node.elements_element, ih]
      rfl
    | text content =>
      rw [Node.strippedAll, Node.elements_text, ← ih]
      split <;> rfl
    | comment content => rw [Node.strippedAll, Node.elements_comment, ih]

/-- What is not written has no say in where the elements are. -/
theorem Element.at?_stripped (whitespace : Whitespace) (root : Element) (path : List Nat) :
    (root.stripped whitespace).at? path = (root.at? path).map (Element.stripped whitespace) := by
  induction path generalizing root with
  | nil => rfl
  | cons index path ih =>
    obtain ⟨name, uri, list, children⟩ := root
    rw [Element.stripped, Element.at?_cons, Element.at?_cons, Node.elements_strippedAll,
      List.getElem?_map]
    cases (Node.elements children)[index]? with
    | none => rfl
    | some child => exact ih child

namespace Encoding

/-- The data that is written instead of the nodes inside an element, if its tag allows that. -/
def dataInside? (source : Context) (name : String) (children : List Node) :
    Option TagCode → Encode (Option Bytes)
  | some code => opaqueData? source name children code
  | none => pure none

theorem behind_eq (source : Context) (depth : Nat) (name : String) (children : List Node)
    (code? : Option TagCode) : behind source depth name children code? =
      if children.isEmpty then pure []
      else dataInside? source name children code? >>= fun data? =>
        match data? with
        | some data => lift (Frame.counted? data) >>= fun _ => pure [.opaqueData data, .finish]
        | none => content source depth children >>= fun inner => pure (inner ++ [.finish]) := by
  cases code? <;> rfl

/-! ## Elements that are written -/

/-- The tokens of an element at some depth, written from one state to another: those in front of
what stands inside the element at the end of a path, those inside, and those behind. -/
inductive EmitsAt (source : Context) :
    List Nat → Nat → Element → State → List Token → List Token → List Token → State → Prop
  | here {depth : Nat} {name : String} {uri : Option String} {list : List Attribute}
      {children : List Node} {state opened listed last : State}
      {start attributes inner : List Token}
      (tag : tag source name uri (flags list children)
        (source.language.tagCode? uri name state.tagPage) state = .ok start opened)
      (items : Encoding.attributes source list opened = .ok attributes listed)
      (inside : behind source (depth + 1) name children
        (source.language.tagCode? uri name state.tagPage) listed = .ok inner last) :
      EmitsAt source [] depth ⟨name, uri, list, children⟩ state (start ++ attributes) inner [] last
  | inside {path : List Nat} {depth : Nat} {name : String} {uri : Option String}
      {list : List Attribute} {before behind : List Node} {child : Element}
      {state opened listed asked middle after last : State}
      {start attributes front first inner second back : List Token}
      (tag : tag source name uri (flags list (before ++ .element child :: behind))
        (source.language.tagCode? uri name state.tagPage) state = .ok start opened)
      (items : Encoding.attributes source list opened = .ok attributes listed)
      (nodes : dataInside? source name (before ++ .element child :: behind)
        (source.language.tagCode? uri name state.tagPage) listed = .ok none asked)
      (segment : content source (depth + 1) before asked = .ok front middle)
      (found : EmitsAt source path (depth + 1) child middle first inner second after)
      (rest : content source (depth + 1) behind after = .ok back last) :
      EmitsAt source ((Node.elements before).length :: path) depth
        ⟨name, uri, list, before ++ .element child :: behind⟩ state
        (start ++ attributes ++ (front ++ first)) inner (second ++ (back ++ [.finish])) last

section Elements
variable {source : Context}

theorem content_append_eq_ok {depth : Nat} {before rest : List Node} {tokens : List Token}
    {state last : State} (h : content source depth (before ++ rest) state = .ok tokens last) :
    ∃ front middle back, content source depth before state = .ok front middle ∧
      content source depth rest middle = .ok back last ∧ tokens = front ++ back := by
  -- Node by node in front, with the state that each one leaves.
  induction before generalizing tokens state with
  | nil => exact ⟨[], state, tokens, rfl, h, rfl⟩
  | cons node before ih =>
    cases node with
    | element child =>
      obtain ⟨first, state1, hfirst, h⟩ := bind_eq_ok_iff.mp h
      obtain ⟨others, state2, hothers, h⟩ := bind_eq_ok_iff.mp h
      cases h
      obtain ⟨front, middle, back, hfront, hback, rfl⟩ := ih hothers
      refine ⟨first ++ front, middle, back, ?_, hback, (List.append_assoc _ _ _).symm⟩
      exact bind_eq_ok_iff.mpr ⟨first, state1, hfirst,
        bind_eq_ok_iff.mpr ⟨front, middle, hfront, rfl⟩⟩
    | text data =>
      obtain ⟨first, state1, hfirst, h⟩ := bind_eq_ok_iff.mp h
      obtain ⟨others, state2, hothers, h⟩ := bind_eq_ok_iff.mp h
      cases h
      obtain ⟨front, middle, back, hfront, hback, rfl⟩ := ih hothers
      refine ⟨first :: front, middle, back, ?_, hback, rfl⟩
      exact bind_eq_ok_iff.mpr ⟨first, state1, hfirst,
        bind_eq_ok_iff.mpr ⟨front, middle, hfront, rfl⟩⟩
    | comment data => exact ih h

theorem dataInside?_eq_none {name : String} {before behind : List Node} {child : Element}
    {code? : Option TagCode} {data? : Option Bytes} {state last : State}
    (h : dataInside? source name (before ++ .element child :: behind) code? state =
      .ok data? last) : data? = none := by
  cases code? with
  | none =>
    cases h
    rfl
  | some code =>
    cases data? with
    | none => rfl
    | some data =>
      have hchildren := (opaqueData?_spec h).2.2.2 data rfl
      have helements := congrArg Node.elements hchildren
      simp at helements

/-- The tokens of an element are split around those inside any element that a path leads to. -/
theorem exists_emitsAt {path : List Nat} {depth : Nat} {root target : Element}
    {tokens : List Token} {state last : State}
    (h : element source depth root state = .ok tokens last) (hat : root.at? path = some target) :
    ∃ front inner back, tokens = front ++ inner ++ back ∧
      EmitsAt source path depth root state front inner back last := by
  induction path generalizing depth root tokens state last with
  | nil =>
    obtain ⟨name, uri, list, children⟩ := root
    obtain ⟨-, start, opened, attributes, listed, inner, rfl, tag, items, inside⟩ := element_eq_ok h
    exact ⟨_, inner, [], (List.append_nil _).symm, .here tag items inside⟩
  | cons index path ih =>
    obtain ⟨name, uri, list, children⟩ := root
    obtain ⟨child, hchild, htarget⟩ := Option.bind_eq_some_iff.mp hat
    obtain ⟨before, behind, rfl, rfl⟩ := Node.exists_of_getElem?_elements hchild
    obtain ⟨-, start, opened, attributes, listed, inside, rfl, tag, items, h⟩ := element_eq_ok h
    rw [behind_eq, if_neg (by simp)] at h
    obtain ⟨data?, asked, nodes, h⟩ := bind_eq_ok_iff.mp h
    -- Data stands for a text alone, and here is an element.
    obtain rfl := dataInside?_eq_none nodes
    obtain ⟨written, _, hcontent, h⟩ := bind_eq_ok_iff.mp h
    cases h
    obtain ⟨front, middle, others, segment, hothers, rfl⟩ := content_append_eq_ok hcontent
    obtain ⟨whole, after, helement, h⟩ := bind_eq_ok_iff.mp hothers
    obtain ⟨back, _, rest, h⟩ := bind_eq_ok_iff.mp h
    cases h
    obtain ⟨first, inner, second, rfl, found⟩ := ih helement htarget
    refine ⟨_, inner, _, ?_, .inside tag items nodes segment found rest⟩
    simp only [List.append_assoc]

/-- The tokens inside are the ones that the encoder chooses for the element at the end of the
path. -/
theorem behind_of_emitsAt {path : List Nat} {depth : Nat} {root : Element} {state last : State}
    {front inner back : List Token}
    (h : EmitsAt source path depth root state front inner back last) {name : String}
    {uri : Option String} {list : List Attribute} {children : List Node}
    (hat : root.at? path = some ⟨name, uri, list, children⟩) :
    ∃ depth page state last, behind source depth name children
      (source.language.tagCode? uri name page) state = .ok inner last := by
  induction h with
  | here _ _ inside =>
    cases hat
    exact ⟨_, _, _, _, inside⟩
  | inside _ _ _ _ _ _ ih =>
    rw [Element.at?_cons_of_children rfl] at hat
    exact ih hat

end Elements

/-! ## Streams that are written -/

/-- A stream that is written for a document, with the tokens that stand inside the element at the
end of a path. -/
inductive WritesAt (options : EncodeOptions) (path : List Nat) (document : Document) :
    List Token → Bytes → Prop
  | mk {id : PublicId} {table : TableBuilder} {front inner back : List Token} {state : State}
      {written : Bytes} (identified : publicId options {} = .ok id table)
      (emitted : EmitsAt (Context.of options table (document.root.stripped options.whitespace))
        path 1 (document.root.stripped options.whitespace) { table } front inner back state)
      (assembled : assemble options id state.table (front ++ inner ++ back) = .ok written) :
      WritesAt options path document inner written

section Streams
variable {options : EncodeOptions} {path : List Nat} {document : Document} {written : Bytes}

theorem exists_writesAt {target : Element} (h : encodeDocument options document = .ok written)
    (hat : document.root.at? path = some target) :
    ∃ inner, WritesAt options path document inner written := by
  obtain ⟨-, id, table, tokens, state, identified, helement, assembled⟩ := run_eq_ok h
  have hstripped : (document.root.stripped options.whitespace).at? path =
      some (target.stripped options.whitespace) := by
    rw [Element.at?_stripped, hat]
    rfl
  obtain ⟨front, inner, back, rfl, emitted⟩ := exists_emitsAt helement hstripped
  exact ⟨inner, .mk identified emitted assembled⟩

theorem behind_of_writesAt {inner : List Token} (h : WritesAt options path document inner written)
    {name : String} {uri : Option String} {list : List Attribute} {children : List Node}
    (hat : document.root.at? path = some ⟨name, uri, list, children⟩) :
    ∃ (source : Context) (depth : Nat) (page : UInt8) (state last : State),
      source.language = options.language ∧ source.opaqueEncoding = options.opaqueEncoding ∧
        behind source depth name (Node.strippedAll options.whitespace children)
          (options.language.tagCode? uri name page) state = .ok inner last := by
  cases h with
  | mk _ emitted _ =>
    have hstripped : (document.root.stripped options.whitespace).at? path =
        some ⟨name, uri, list, Node.strippedAll options.whitespace children⟩ := by
      rw [Element.at?_stripped, hat, Option.map_some, Element.stripped]
    obtain ⟨depth, page, state, last, hbehind⟩ := behind_of_emitsAt emitted hstripped
    exact ⟨_, depth, page, state, last, rfl, rfl, hbehind⟩

end Streams

end Encoding

end BinaryXml
