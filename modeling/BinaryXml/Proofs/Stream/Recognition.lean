import BinaryXml.Proofs.Document.Coalescing
import BinaryXml.Proofs.Stream.AttributeLists
import BinaryXml.Proofs.Text.Whitespace

/-! # The decoder accepts the grammar

* `children_iff`: the children that pieces make up are the ones that the decoder arranges.
* `content_cons_iff`: content is determined by its first byte, one case per kind of token.
* `reads_element` and `reads_content`: elements are read exactly where the grammar has them.
* `decodeDocument_eq_ok_iff`: the decoder accepts a stream exactly if the grammar derives it, and
  gives the document of the derivation.
-/

namespace BinaryXml.Decoding

open Grammar

set_option autoImplicit false

/-! ## Elements -/

section Elements
variable {context : Context} {state : State}

theorem reads_unknownTag {α : Type} (token : UInt8) (role : TokenRole) :
    Reads (unknownTag token role : Decode α) state (fun _ _ _ => False) :=
  Reads.getThen (reads_throw _)

theorem base_cases {page token : UInt8} {bytes : Bytes} {name : String} {uri : Option String}
    (h : TagName context page token bytes name uri) :
    Code.base token = Code.literal ∨ Code.firstOfPage ≤ Code.base token := by
  cases h with
  | literal base _ => exact .inl base
  | registered base _ => exact .inr base

theorem literal_le_base {page token : UInt8} {bytes : Bytes} {name : String} {uri : Option String}
    (h : TagName context page token bytes name uri) : Code.literal ≤ Code.base token := by
  rcases base_cases h with base | base
  · exact UInt8.le_of_eq base.symm
  · exact UInt8.le_trans (by decide) base

theorem reads_tag (token : UInt8) :
    Reads (tag context token) state (fun bytes start pages =>
      TagName context state.tagPage token bytes start.1 start.2 ∧ pages = state.pages) := by
  unfold tag
  by_cases hliteral : Code.base token = Code.literal
  · rw [if_pos hliteral]
    refine ((reads_literalName context).map _).congr fun bytes start pages => ?_
    constructor
    · rintro ⟨name, ⟨hname, rfl⟩, rfl⟩
      exact ⟨.literal hliteral hname, rfl⟩
    · rintro ⟨h, rfl⟩
      obtain ⟨name, uri⟩ := start
      cases h with
      | literal _ hname => exact ⟨name, ⟨hname, rfl⟩, rfl⟩
      | registered base _ => exact absurd (hliteral ▸ base) (by decide)
  · rw [if_neg hliteral]
    by_cases hbase : Code.firstOfPage ≤ Code.base token
    · rw [if_pos hbase]
      refine Reads.getThen ((reads_found (context.language.tagName? state.tagPage (Code.base token))
        (fun name bytes start pages => bytes = [] ∧
          start = (name, context.language.uri? state.tagPage) ∧ pages = state.pages)
            (fun name hname => ?_) fun hnone => ?_).congr fun bytes start pages => ?_)
      · dsimp only
        rw [hname]
        exact reads_pure _
      · dsimp only
        rw [hnone]
        exact reads_unknownTag token .tag
      · constructor
        · rintro ⟨name, hname, rfl, rfl, rfl⟩
          exact ⟨.registered hbase hname, rfl⟩
        · rintro ⟨h, rfl⟩
          obtain ⟨name, uri⟩ := start
          cases h with
          | literal base _ => exact absurd base hliteral
          | registered _ hname => exact ⟨_, hname, rfl, rfl, rfl⟩
    · rw [if_neg hbase]
      refine (reads_unknownTag token .tag).congr fun bytes start pages => ⟨False.elim, ?_⟩
      rintro ⟨h, -⟩
      rcases base_cases h with base | base
      · exact hliteral base
      · exact hbase base

theorem pending_none_iff {page last : UInt8} {bytes : Bytes} {list : List Attribute} :
    Pending context none page bytes list last ↔ AttributeList context page bytes list last := by
  constructor
  · rintro ⟨h⟩
    assumption
  · exact .fresh

theorem attributes_absent_iff {page token last : UInt8} {bytes : Bytes} {list : List Attribute}
    (flag : token &&& Code.hasAttributes = 0) :
    Attributes context page token bytes list last ↔ bytes = [] ∧ list = [] ∧ last = page := by
  constructor
  · intro h
    cases h with
    | absent => exact ⟨rfl, rfl, rfl⟩
    | present flag' _ => exact absurd flag flag'
  · rintro ⟨rfl, rfl, rfl⟩
    exact .absent flag

theorem attributes_present_iff {page token last : UInt8} {bytes : Bytes} {list : List Attribute}
    (flag : token &&& Code.hasAttributes ≠ 0) :
    Attributes context page token bytes list last ↔ AttributeList context page bytes list last := by
  constructor
  · intro h
    cases h with
    | absent flag' => exact absurd flag' flag
    | present _ items => exact items
  · exact .present flag

theorem reads_optionalAttributes (token : UInt8) :
    Reads (if token &&& Code.hasAttributes ≠ 0 then do attributes context (← remaining) none
      else pure []) state (fun bytes list last => last.tags = state.tagPage ∧
        Attributes context state.attributePage token bytes list last.attributes) := by
  by_cases hflag : token &&& Code.hasAttributes = 0
  · rw [if_neg (not_not_intro hflag)]
    refine (reads_pure []).congr fun bytes list last => ?_
    rw [attributes_absent_iff hflag]
    constructor
    · rintro ⟨rfl, rfl, rfl⟩
      exact ⟨rfl, rfl, rfl, rfl⟩
    · rintro ⟨htags, rfl, rfl, hattributes⟩
      exact ⟨rfl, rfl, Pages.ext htags hattributes⟩
  · rw [if_pos hflag]
    refine (Reads.remainingThen (reads_attributes _ none (Nat.le_refl _))).congr
      fun bytes list last => ?_
    rw [attributes_present_iff hflag]
    exact and_congr_right fun _ => pending_none_iff

/-! ## Children -/

theorem arrange_texts {whitespace : Whitespace} (run : List String) {pieces : List Node}
    (h : ∀ text, pieces.head? ≠ some (.text text)) :
    arrange whitespace (run.map .text ++ pieces) =
      (whitespace.apply (String.join run)).toList.map .text ++ arrange whitespace pieces := by
  unfold arrange
  rw [Node.coalesce_texts]
  by_cases hempty : String.join run = ""
  · rw [hempty, Node.consText_empty, Whitespace.apply_empty]
    rfl
  · rw [Node.consText_of_head? hempty (Node.head?_coalesce h), List.filterMap_cons]
    cases hkept : whitespace.apply (String.join run) <;> simp [hkept]

theorem arrange_node {whitespace : Whitespace} {node : Node} (pieces : List Node)
    (h : ∀ text, node ≠ .text text) :
    arrange whitespace (node :: pieces) = node :: arrange whitespace pieces := by
  cases node with
  | text content => exact absurd rfl (h content)
  | element child => rfl
  | comment content => rfl

theorem arrange_of_children {whitespace : Whitespace} {pieces children : List Node}
    (h : Children whitespace pieces children) : children = arrange whitespace pieces := by
  induction h with
  | nil => rfl
  | node notText _ ih => rw [arrange_node _ notText, ih]
  | texts _ whole _ ih => rw [arrange_texts _ whole, ih]

theorem children_texts {whitespace : Whitespace} (run : List String) {pieces children : List Node}
    (whole : ∀ text, pieces.head? ≠ some (.text text)) (made : Children whitespace pieces children) :
    ∃ children, Children whitespace (run.map .text ++ pieces) children := by
  by_cases hrun : run = []
  · subst hrun
    exact ⟨children, made⟩
  · exact ⟨_, .texts hrun whole made⟩

theorem exists_children (whitespace : Whitespace) (pieces : List Node) :
    ∃ children, Children whitespace pieces children := by
  suffices h : ∃ (run : List String) (rest children : List Node), pieces = run.map .text ++ rest ∧
      (∀ text, rest.head? ≠ some (.text text)) ∧ Children whitespace rest children by
    obtain ⟨run, rest, children, rfl, whole, made⟩ := h
    exact children_texts run whole made
  induction pieces with
  | nil => exact ⟨[], [], [], rfl, by simp, .nil⟩
  | cons node pieces ih =>
    obtain ⟨run, rest, children, rfl, whole, made⟩ := ih
    have next := children_texts run whole made
    cases node with
    | text content => exact ⟨content :: run, rest, children, rfl, whole, made⟩
    | element child =>
      obtain ⟨children, made⟩ := next
      exact ⟨[], _, _, rfl, by simp, .node (by simp) made⟩
    | comment content =>
      obtain ⟨children, made⟩ := next
      exact ⟨[], _, _, rfl, by simp, .node (by simp) made⟩

theorem children_iff {whitespace : Whitespace} {pieces children : List Node} :
    Children whitespace pieces children ↔ children = arrange whitespace pieces := by
  constructor
  · exact arrange_of_children
  · rintro rfl
    obtain ⟨children, made⟩ := exists_children whitespace pieces
    rwa [← arrange_of_children made]

theorem bind_ite {α β : Type} {c : Prop} [Decidable c] (first second : Decode α)
    (next : α → Decode β) :
    (if c then first else second) >>= next = if c then first >>= next else second >>= next := by
  split <;> rfl

theorem element_eq (inner : Decode (List Node)) (depth : Nat) (token : UInt8) :
    element context inner depth token =
      if context.maxDepth < depth then throw (.tooDeep context.maxDepth)
      else tag context token >>= fun start =>
        (if token &&& Code.hasAttributes ≠ 0 then do attributes context (← remaining) none
          else pure []) >>= fun list =>
        (if token &&& Code.hasContent ≠ 0 then inner else pure []) >>= fun pieces =>
        pure ⟨start.1, start.2, list, arrange context.whitespace pieces⟩ := by
  unfold element
  simp only [bind_ite]
  rfl

/-- The pieces of the content of an element, of which there is none without the flag. -/
def Inside (context : Context) (depth : Nat) (token : UInt8) (pages : Pages) (bytes : Bytes)
    (pieces : List Node) (last : Pages) : Prop :=
  if token &&& Code.hasContent ≠ 0 then Content context depth pages bytes pieces last
  else bytes = [] ∧ pieces = [] ∧ last = pages

/-- What follows the name of an element whose token announces it. -/
def Behind (context : Context) (depth : Nat) (token : UInt8) (start : String × Option String)
    (pages : Pages) (bytes : Bytes) (root : Element) (last : Pages) : Prop :=
  ∃ list next front back, bytes = front ++ back ∧
    (next.tags = pages.tags ∧ Attributes context pages.attributes token front list next.attributes) ∧
    ∃ pieces, Inside context depth token next back pieces last ∧
      root = ⟨start.1, start.2, list, arrange context.whitespace pieces⟩

theorem isElement_iff {depth : Nat} {pages last : Pages} {token : UInt8} {bytes : Bytes}
    {root : Element} :
    IsElement context depth pages (token :: bytes) root last ↔
      depth ≤ context.maxDepth ∧ ∃ start middle front back, bytes = front ++ back ∧
        (TagName context pages.tags token front start.1 start.2 ∧ middle = pages) ∧
          Behind context depth token start middle back root last := by
  constructor
  · intro h
    cases h with
    | empty start flag =>
      cases start with
      | mk deep tag attributes =>
      refine ⟨deep, (_, _), pages, _, _, rfl, ⟨tag, rfl⟩, _, ⟨_, _⟩, _, [], (List.append_nil _).symm,
        ⟨by rfl, attributes⟩, [], ?_, rfl⟩
      unfold Inside
      rw [if_neg (not_not_intro flag)]
      exact ⟨rfl, rfl, rfl⟩
    | nested start flag content made =>
      rw [children_iff] at made
      subst made
      cases start with
      | mk deep tag attributes =>
      refine ⟨deep, (_, _), pages, _, _, List.append_assoc _ _ _, ⟨tag, rfl⟩, _, ⟨_, _⟩, _, _, rfl,
        ⟨by rfl, attributes⟩, _, ?_, rfl⟩
      unfold Inside
      rwa [if_pos flag]
  · rintro ⟨deep, ⟨name, uri⟩, _, front, _, rfl, ⟨tag, rfl⟩, list, ⟨tags, next⟩, middle, back, rfl,
      ⟨htags, attributes⟩, pieces, inside, rfl⟩
    cases htags
    have start := Head.mk deep tag attributes
    unfold Inside at inside
    split at inside
    · rename_i flag
      rw [← List.append_assoc]
      exact .nested start flag inside (children_iff.mpr rfl)
    · rename_i flag
      obtain ⟨rfl, rfl, rfl⟩ := inside
      rw [List.append_nil]
      exact .empty start (Decidable.not_not.mp flag)

theorem reads_behind {inner : Decode (List Node)} {depth : Nat} (token : UInt8)
    (start : String × Option String)
    (hinner : ∀ state' front, Moves state.cursor state'.cursor front →
      Reads inner state' (Content context depth state'.pages)) :
    Reads ((if token &&& Code.hasAttributes ≠ 0 then do attributes context (← remaining) none
        else pure []) >>= fun list =>
      (if token &&& Code.hasContent ≠ 0 then inner else pure []) >>= fun pieces =>
      pure (Element.mk start.1 start.2 list (arrange context.whitespace pieces))) state
      (Behind context depth token start state.pages) := by
  refine (reads_optionalAttributes token).bind (fun list middle bytes (root : Element) last =>
    ∃ pieces, Inside context depth token middle bytes pieces last ∧
      root = ⟨start.1, start.2, list, arrange context.whitespace pieces⟩)
    fun list front state' _ hm => Reads.map ?_ _
  unfold Inside
  split
  · exact hinner state' front hm
  · exact reads_pure []

/-- An element is read behind its tag token, with a reader that reads content. -/
theorem reads_element {inner : Decode (List Node)} {depth : Nat} (token : UInt8)
    (hinner : ∀ state' front, Moves state.cursor state'.cursor front →
      Reads inner state' (Content context depth state'.pages)) :
    Reads (element context inner depth token) state
      (fun bytes => IsElement context depth state.pages (token :: bytes)) := by
  rw [element_eq]
  by_cases hdeep : context.maxDepth < depth
  · rw [if_pos hdeep]
    refine (reads_throw _).congr fun bytes root last => ⟨False.elim, fun h => ?_⟩
    have := (isElement_iff.mp h).1
    omega
  · rw [if_neg hdeep]
    refine ((reads_tag token).bind (Behind context depth token) fun start front state' _ hm =>
      reads_behind token start fun state'' front' hm' =>
        hinner state'' _ (hm.trans hm')).congr fun bytes root last => ?_
    rw [isElement_iff, and_iff_right (Nat.not_lt.mp hdeep)]
    rfl

/-! ## Content -/

/-- What content is behind one byte, by what the byte is. -/
def Inside.After (context : Context) (depth : Nat) (pages : Pages) (token : UInt8) (bytes : Bytes)
    (pieces : List Node) (last : Pages) : ContentToken → Prop
  | .finish => bytes = [] ∧ pieces = [] ∧ last = pages
  | .switchPage => ∃ page rest, bytes = page :: rest ∧
      Content context depth ⟨page, pages.attributes⟩ rest pieces last
  | .string kind => ∃ text front back others, bytes = front ++ back ∧
      Operand context kind front text ∧ Content context depth pages back others last ∧
        pieces = .text text :: others
  | .reserved => False
  | .tag => ∃ child middle front back others, bytes = front ++ back ∧
      IsElement context (depth + 1) pages (token :: front) child middle ∧
        Content context depth middle back others last ∧ pieces = .element child :: others

theorem not_content_nil {depth : Nat} {pages last : Pages} {pieces : List Node} :
    ¬ Content context depth pages [] pieces last := by
  intro h
  cases h

theorem literal_le_base_of_head {depth : Nat} {pages next : Pages} {token : UInt8} {front : Bytes}
    {head : Element} (h : Head context depth pages token front head next) :
    Code.literal ≤ Code.base token := by
  cases h with
  | mk _ tag _ => exact literal_le_base tag

theorem after_of_content {depth : Nat} {pages last : Pages} {token : UInt8} {bytes : Bytes}
    {pieces : List Node} (h : Content context depth pages (token :: bytes) pieces last) :
    Inside.After context depth pages token bytes pieces last (ContentToken.ofByte token) := by
  cases h with
  | finish => exact ⟨rfl, rfl, rfl⟩
  | switchPage rest => exact ⟨_, _, rfl, rest⟩
  | string first rest =>
    rw [ContentToken.ofByte_code]
    exact ⟨_, _, _, _, rfl, first, rest, rfl⟩
  | empty start flag rest =>
    rw [ContentToken.ofByte_eq_tag (literal_le_base_of_head start)]
    exact ⟨_, _, _, _, _, rfl, .empty start flag, rest, rfl⟩
  | nested start flag content made rest =>
    rw [ContentToken.ofByte_eq_tag (literal_le_base_of_head start)]
    exact ⟨_, _, _, _, _, (List.append_assoc _ _ _).symm, .nested start flag content made, rest, rfl⟩

theorem content_of_after {depth : Nat} {pages last : Pages} {token : UInt8} {bytes : Bytes}
    {pieces : List Node} {sort : ContentToken} (hsort : sort.Sorts token)
    (h : Inside.After context depth pages token bytes pieces last sort) :
    Content context depth pages (token :: bytes) pieces last := by
  cases sort with
  | finish =>
    obtain ⟨rfl, rfl, rfl⟩ := h
    cases hsort
    exact .finish
  | switchPage =>
    obtain ⟨page, rest, rfl, h⟩ := h
    cases hsort
    exact .switchPage h
  | string kind =>
    obtain ⟨text, front, back, others, rfl, first, h, rfl⟩ := h
    cases hsort
    exact .string first h
  | reserved => exact h.elim
  | tag =>
    obtain ⟨child, middle, front, back, others, rfl, first, h, rfl⟩ := h
    cases first with
    | empty start flag => exact .empty start flag h
    | nested start flag content made =>
      rw [List.append_assoc]
      exact .nested start flag content made h

theorem content_cons_iff {depth : Nat} {pages last : Pages} {token : UInt8} {bytes : Bytes}
    {pieces : List Node} :
    Content context depth pages (token :: bytes) pieces last ↔
      Inside.After context depth pages token bytes pieces last (ContentToken.ofByte token) :=
  ⟨after_of_content, content_of_after (ContentToken.sorts_ofByte token)⟩

theorem reads_content (bound depth : Nat) (hbound : state.cursor.rest.length ≤ bound) :
    Reads (content context bound depth) state (Content context depth state.pages) := by
  -- By the number of bytes ahead, at any depth: the content of a child and what follows the child
  -- are both behind its token.
  induction bound generalizing depth state with
  | zero => exact reads_byte_of_atEnd (fun _ _ => not_content_nil) hbound
  | succ bound ih =>
    refine Reads.byteThen (fun _ _ => not_content_nil) fun token state' hm hpages => ?_
    have hbound' := hm.length_le_of_byte hbound
    refine Reads.congr ?_ fun bytes pieces last => content_cons_iff.symm
    rw [← hpages]
    cases htoken : ContentToken.ofByte token with
    | finish =>
      exact reads_pure []
    | switchPage =>
      refine (reads_switchTagPage.bind (fun _ => Content context depth)
        fun _ _ state'' _ hm' => ih depth (hm'.length_le_of_le hbound')).congr
          fun bytes pieces last => ?_
      constructor
      · rintro ⟨-, _, front, back, rfl, ⟨page, rfl, rfl⟩, h⟩
        exact ⟨page, back, rfl, h⟩
      · rintro ⟨page, back, rfl, h⟩
        exact ⟨(), _, [page], back, rfl, ⟨page, rfl, rfl⟩, h⟩
    | string kind =>
      refine ((reads_string context kind).bind (fun text middle bytes pieces last =>
        ∃ others, Content context depth middle bytes others last ∧ pieces = .text text :: others)
          fun text _ state'' _ hm' => (ih depth (hm'.length_le_of_le hbound')).map _).congr
            fun bytes pieces last => ?_
      constructor
      · rintro ⟨text, _, front, back, rfl, ⟨htext, rfl⟩, others, h, rfl⟩
        exact ⟨text, front, back, others, rfl, htext, h, rfl⟩
      · rintro ⟨text, front, back, others, rfl, htext, h, rfl⟩
        exact ⟨text, _, front, back, rfl, ⟨htext, rfl⟩, others, h, rfl⟩
    | reserved => exact reads_unknownTag token .content
    | tag =>
      refine ((reads_element token fun state'' _ hm' => ih (depth + 1)
        (hm'.length_le_of_le hbound')).bind (fun child middle bytes pieces last =>
          ∃ others, Content context depth middle bytes others last ∧
            pieces = .element child :: others) fun child _ state'' _ hm' =>
              (ih depth (hm'.length_le_of_le hbound')).map _).congr fun bytes pieces last => ?_
      constructor
      · rintro ⟨child, middle, front, back, rfl, hchild, others, h, rfl⟩
        exact ⟨child, middle, front, back, others, rfl, hchild, h, rfl⟩
      · rintro ⟨child, middle, front, back, others, rfl, hchild, h, rfl⟩
        exact ⟨child, middle, front, back, rfl, hchild, others, h, rfl⟩

end Elements

/-! ## Streams -/

section Streams
variable {context : Context}

/-- Reads the outermost element. -/
def outermost (context : Context) : Decode Element := do
  let token ← read Reader.byte
  element context (content context (← remaining) 1) 1 token

/-- Accepts a document if no byte is left. -/
def ending (root : Element) : Decode Document := do
  let cursor := (← get).cursor
  if cursor.atEnd then pure ⟨root⟩ else throw (.decoding (.trailingData cursor.offset))

theorem body_eq : body context = (do
    let bound ← remaining
    leadingPages bound
    let root ← outermost context
    ending root) := by
  simp only [body, outermost, ending, bind_assoc]

theorem not_isElement_nil {depth : Nat} {pages last : Pages} {root : Element} :
    ¬ IsElement context depth pages [] root last := by
  intro h
  cases h

theorem reads_outermost {state : State} :
    Reads (outermost context) state (IsElement context 1 state.pages) := by
  refine Reads.byteThen (fun _ _ => not_isElement_nil) fun token state' hm hpages => ?_
  refine Reads.remainingThen ?_
  rw [← hpages]
  exact reads_element token fun state'' _ hm' =>
    reads_content _ 1 (hm'.length_le_of_le (Nat.le_refl _))

theorem ending_eq_ok_iff {root : Element} {document : Document} {state state' : State} :
    ending root state = .ok document state' ↔
      state.cursor.rest = [] ∧ document = ⟨root⟩ ∧ state' = state := by
  have hend : ending root state = if state.cursor.atEnd then .ok ⟨root⟩ state
      else .error (.decoding (.trailingData state.cursor.offset)) state := by
    change (if state.cursor.atEnd then _ else _ : Decode Document) state = _
    split <;> rfl
  rw [hend, Cursor.atEnd]
  split
  · rename_i hrest
    rw [and_iff_right (List.isEmpty_iff.mp hrest)]
    constructor
    · rintro ⟨⟩
      exact ⟨rfl, rfl⟩
    · rintro ⟨rfl, rfl⟩
      rfl
  · rename_i hrest
    constructor
    · rintro ⟨⟩
    · rintro ⟨h, -⟩
      exact (hrest (List.isEmpty_iff.mpr h)).elim

/-- A document is accepted if all that is left is its outermost element. -/
theorem outermost_ending_iff {state : State} {document : Document} :
    (∃ state', (outermost context >>= ending) state = .ok document state') ↔
      ∃ last, IsElement context 1 state.pages state.cursor.rest document.root last := by
  have hreads : Reads (outermost context) state (IsElement context 1 state.pages) := reads_outermost
  constructor
  · rintro ⟨state', hrun⟩
    obtain ⟨root, state'', hroot, hending⟩ := bind_eq_ok_iff.mp hrun
    obtain ⟨bytes, helement, hm⟩ := hreads.sound hroot
    obtain ⟨hend, rfl, -⟩ := ending_eq_ok_iff.mp hending
    rw [hm.rest, hend, List.append_nil]
    exact ⟨_, helement⟩
  · rintro ⟨last, helement⟩
    obtain ⟨state', hroot, -, hm⟩ := hreads.complete helement (List.append_nil _).symm
    have hending : ending document.root state' = .ok document state' :=
      ending_eq_ok_iff.mpr ⟨hm.rest_eq (List.append_nil _).symm, rfl, rfl⟩
    exact ⟨state', bind_eq_ok_iff.mpr ⟨document.root, state', hroot, hending⟩⟩

theorem token_ne_switchPage {depth : Nat} {pages last : Pages} {token : UInt8} {bytes : Bytes}
    {root : Element} (h : IsElement context depth pages (token :: bytes) root last) :
    token ≠ Code.switchPage := by
  rintro rfl
  cases h with
  | empty start _ => exact absurd (literal_le_base_of_head start) (by decide)
  | nested start _ _ _ => exact absurd (literal_le_base_of_head start) (by decide)

theorem body_iff_of_head {page : UInt8} {bytes : Bytes} {root : Element}
    (h : bytes.head? ≠ some Code.switchPage) :
    Body context page bytes root ↔ ∃ last, IsElement context 1 ⟨page, 0⟩ bytes root last := by
  constructor
  · intro hbody
    cases hbody with
    | switchPage _ => exact absurd rfl h
    | root element => exact ⟨_, element⟩
  · rintro ⟨last, element⟩
    exact .root element

theorem body_switchPage_iff {page : UInt8} {bytes : Bytes} {root : Element} :
    Body context page (Code.switchPage :: bytes) root ↔
      ∃ new rest, bytes = new :: rest ∧ Body context new rest root := by
  constructor
  · intro hbody
    cases hbody with
    | switchPage rest => exact ⟨_, _, rfl, rest⟩
    | root element => exact absurd rfl (token_ne_switchPage element)
  · rintro ⟨new, rest, rfl, hbody⟩
    exact .switchPage hbody

theorem outermost_ending_iff_body {state : State} {document : Document}
    (h : state.cursor.rest.head? ≠ some Code.switchPage) (hattributes : state.attributePage = 0) :
    (∃ state', (outermost context >>= ending) state = .ok document state') ↔
      Body context state.tagPage state.cursor.rest document.root := by
  have hpages : state.pages = ⟨state.tagPage, 0⟩ := Pages.ext rfl hattributes
  rw [outermost_ending_iff, body_iff_of_head h, hpages]

theorem reads_switch (state : State) :
    Reads (do let _ ← read Reader.byte; switchTagPage) state
      (fun bytes _ pages => ∃ token page, bytes = [token, page] ∧
        pages = ⟨page, state.attributePage⟩) := by
  refine Reads.byteThen (by simp) fun token state' hm hpages => ?_
  refine reads_switchTagPage.congr fun bytes _ pages => ?_
  have hattributes : state'.attributePage = state.attributePage := congrArg Pages.attributes hpages
  rw [hattributes]
  constructor
  · rintro ⟨page, rfl, rfl⟩
    exact ⟨token, page, rfl, rfl⟩
  · rintro ⟨token', page, h, rfl⟩
    cases h
    exact ⟨page, rfl, rfl⟩

theorem leadingPages_succ {α : Type} (bound : Nat) (state : State) (next : Unit → Decode α) :
    (leadingPages (bound + 1) >>= next) state =
      if state.cursor.rest.head? = some Code.switchPage then
        ((do let _ ← read Reader.byte; switchTagPage) >>= fun _ => leadingPages bound >>= next) state
      else next () state := by
  have hsplit : (leadingPages (bound + 1) >>= next) state =
      ((if state.cursor.peek? = some Code.switchPage then
        (do let _ ← read Reader.byte; switchTagPage) >>= fun _ => leadingPages bound
      else pure ()) >>= next) state := by
    simp only [bind_assoc]
    rfl
  rw [hsplit, bind_ite, bind_assoc]
  unfold Cursor.peek?
  split <;> rfl

/-- The whole body is read page by page, as each change of page leaves a body behind. -/
theorem leadingPages_eq_ok_iff {document : Document} (bound : Nat) {state : State}
    (hbound : state.cursor.rest.length ≤ bound) (hattributes : state.attributePage = 0) :
    (∃ state', (leadingPages bound >>= fun _ => outermost context >>= ending) state =
      .ok document state') ↔ Body context state.tagPage state.cursor.rest document.root := by
  -- By the number of bytes ahead. No state is kept but the code page for tags, so the induction is
  -- over all states in which no attribute page has been set.
  induction bound generalizing state with
  | zero =>
    refine outermost_ending_iff_body ?_ hattributes
    rw [List.eq_nil_of_length_eq_zero (Nat.le_zero.mp hbound)]
    simp
  | succ bound ih =>
    rw [leadingPages_succ]
    by_cases hhead : state.cursor.rest.head? = some Code.switchPage
    · rw [if_pos hhead]
      obtain ⟨rest, hrest⟩ := List.head?_eq_some_iff.mp hhead
      rw [hrest, body_switchPage_iff]
      constructor
      · rintro ⟨state', hrun⟩
        obtain ⟨_, state'', hswitch, hnext⟩ := bind_eq_ok_iff.mp hrun
        obtain ⟨_, ⟨token, page, rfl, hpages⟩, hm⟩ := (reads_switch state).sound hswitch
        have hm' := hm.rest
        rw [hrest] at hm'
        cases hm'
        have hlt := hm.length_lt_of_ne_nil (List.cons_ne_nil _ _)
        have hbody := (ih (by omega)
          ((congrArg Pages.attributes hpages).trans hattributes)).mp ⟨state', hnext⟩
        have htag : state''.tagPage = page := congrArg Pages.tags hpages
        exact ⟨page, state''.cursor.rest, rfl, htag ▸ hbody⟩
      · rintro ⟨page, rest', rfl, hbody⟩
        obtain ⟨state'', hswitch, hpages, hm⟩ :=
          @(reads_switch state).complete _ _ () _ ⟨Code.switchPage, page, rfl, rfl⟩ hrest
        have htag : state''.tagPage = page := congrArg Pages.tags hpages
        have hrest' : state''.cursor.rest = rest' := hm.rest_eq hrest
        rw [← htag, ← hrest'] at hbody
        have hlt := hm.length_lt_of_ne_nil (List.cons_ne_nil _ _)
        obtain ⟨state', hnext⟩ := (ih (by omega)
          ((congrArg Pages.attributes hpages).trans hattributes)).mpr hbody
        exact ⟨state', bind_eq_ok_iff.mpr ⟨(), state'', hswitch, hnext⟩⟩
    · rw [if_neg hhead]
      exact outermost_ending_iff_body hhead hattributes

theorem body_eq_ok_iff {document : Document} {state : State} (hattributes : state.attributePage = 0) :
    (∃ state', body context state = .ok document state') ↔
      Body context state.tagPage state.cursor.rest document.root := by
  rw [body_eq]
  exact leadingPages_eq_ok_iff _ (Nat.le_refl _) hattributes

theorem run_result_eq_ok_iff {options : DecodeOptions} {stream : Bytes} {document : Document} :
    (run options stream).result = .ok document ↔ ∃ header cursor,
      Header.read (Cursor.ofBytes stream) = .ok header cursor ∧
        (∃ events, header.warnings options.language = .ok events) ∧
          Body (Context.of options header) 0 cursor.rest document.root := by
  unfold run
  constructor
  · intro h
    split at h
    · cases h
    · rename_i header cursor hheader
      refine ⟨header, cursor, hheader, ?_⟩
      split at h
      · cases h
      · rename_i events hevents
        refine ⟨⟨events, hevents⟩, ?_⟩
        split at h
        · rename_i document' state hbody
          cases h
          exact (body_eq_ok_iff rfl).mp ⟨state, hbody⟩
        · cases h
  · rintro ⟨header, cursor, hheader, ⟨events, hevents⟩, h⟩
    obtain ⟨state, hbody⟩ : ∃ state, body (Context.of options header) { cursor, events } =
        .ok document state := (body_eq_ok_iff rfl).mpr h
    simp only [hheader, hevents, hbody]

/-- What the decoder accepts has a derivation. -/
theorem stream_of_run {options : DecodeOptions} {stream : Bytes} {document : Document}
    (h : (run options stream).result = .ok document) : Stream options stream document := by
  obtain ⟨header, cursor, hheader, hevents, hbody⟩ := run_result_eq_ok_iff.mp h
  obtain ⟨front, ⟨hversion, id, charset, table, rfl, hid, hcharset, htable⟩, hm⟩ :=
    (reads_header _ _ _).mp hheader
  have hrest : stream = _ := hm.rest
  rw [hrest]
  exact .mk (.mk hversion hid hcharset htable ((warnings_isOk_iff header _).mp hevents)) hbody

/-- What has a derivation is accepted by the decoder. -/
theorem run_of_stream {options : DecodeOptions} {stream : Bytes} {document : Document}
    (h : Stream options stream document) : (run options stream).result = .ok document := by
  cases h with
  | @mk header front back root start body =>
    cases start with
    | mk hversion hid hcharset htable hnamed =>
      rw [run_result_eq_ok_iff]
      refine ⟨header, ⟨0 + _, back⟩, (reads_header _ _ _).mpr ⟨_, ⟨hversion, _, _, _, rfl, hid,
        hcharset, htable⟩, Moves.ofRest rfl⟩, (warnings_isOk_iff header _).mpr hnamed, body⟩

/-- The decoder accepts a byte string exactly if the grammar derives it, and the document that it
gives is the one that the derivation denotes. -/
theorem decodeDocument_eq_ok_iff (options : DecodeOptions) (stream : Bytes) (document : Document) :
    decodeDocument options stream = .ok document ↔ Stream options stream document :=
  ⟨stream_of_run, run_of_stream⟩

end Streams

end BinaryXml.Decoding
