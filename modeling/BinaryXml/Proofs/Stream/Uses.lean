import Mathlib.Data.List.Forall2
import BinaryXml.Proofs.Stream.Emission

/-! # What a document has no token for

* `elementUses`: the names without a token, the texts and the data of an element, in the order in
  which they are written. The string table has no say in it.
* `elementDemands_eq_flatMap`: what these demand of the table is what the element demands.
* `Spelt`: the token that is written for a use, with the entries of the table.
* `spells_element`: each use of an element is spelt by one token, and nothing else is.
-/

namespace BinaryXml

open Grammar

set_option autoImplicit false

/-- Whether a token is written for a name, a text or data. -/
def Token.isUse : Token → Bool
  | .literal _ _ | .inlineString _ | .tableString _ | .opaqueData _ => true
  | .switchPage _ | .finish | .code _ => false

namespace Encoding

/-! ## Uses -/

/-- A name or a text for which there is no token, or data that is written instead of a text. -/
inductive Use where
  | name (name : String)
  | text (content : String)
  | data (bytes : Bytes)
deriving DecidableEq

section Definitions
variable (language : Language) (encoding : OpaqueEncoding)

def valueUses (page : UInt8) (value : String) : List Use :=
  if value.isEmpty then []
  else match language.attributeValue? value page with
    | some _ => []
    | none => [.text value]

def attributeUses (page : UInt8) : Attribute → List Use
  | ⟨name, value⟩ =>
    match language.attributeStart? name value page with
    | some entry => valueUses language entry.page (entry.remainder value)
    | none => .name name :: valueUses language page value

def listUses (page : UInt8) : List Attribute → List Use
  | [] => []
  | first :: rest => attributeUses language page first ++
      listUses (pageAfterAttribute language page first) rest

def tagUses (name : String) : Option TagCode → List Use
  | some _ => []
  | none => [.name name]

/-- The data that is written instead of the nodes inside an element, if its tag is an opaque one. -/
def dataFor? (children : List Node) : Option TagCode → Option Bytes
  | some code => if language.isOpaque code then dataOf? encoding children else none
  | none => none

mutual

/-- The uses of an element that is written while given code pages are current. -/
def elementUses (pages : Pages) : Element → List Use
  | ⟨name, uri, attributes, children⟩ =>
    let code? := language.tagCode? uri name pages.tags
    tagUses name code? ++ (listUses language pages.attributes attributes ++
      match dataFor? language encoding children code? with
      | some data => [.data data]
      | none => nodesUses
          ⟨pageAfter pages.tags code?, pageAfterList language pages.attributes attributes⟩ children)

def nodesUses (pages : Pages) : List Node → List Use
  | [] => []
  | .element child :: rest =>
    elementUses pages child ++ nodesUses (pagesAfter language pages child) rest
  | .text content :: rest => .text content :: nodesUses pages rest
  | .comment _ :: rest => nodesUses pages rest

end

/-- The uses of what an element has behind its attributes. -/
def innerUses (pages : Pages) (children : List Node) (code? : Option TagCode) : List Use :=
  match dataFor? language encoding children code? with
  | some data => [.data data]
  | none => nodesUses language encoding pages children

theorem elementUses_eq (pages : Pages) (name : String) (uri : Option String)
    (attributes : List Attribute) (children : List Node) :
    elementUses language encoding pages ⟨name, uri, attributes, children⟩ =
      let code? := language.tagCode? uri name pages.tags
      tagUses name code? ++ (listUses language pages.attributes attributes ++
        innerUses language encoding ⟨pageAfter pages.tags code?,
          pageAfterList language pages.attributes attributes⟩ children code?) := by
  rw [elementUses]
  rfl

end Definitions

/-! ## Demands -/

/-- What a use demands of the string table. -/
def Use.demands (source : Context) : Use → List Demand
  | .name entry => nameDemands source entry
  | .text entry => textDemands source entry
  | .data bytes => [.data bytes]

section Demands
variable {source : Context}

theorem valueDemands_eq_flatMap (page : UInt8) (value : String) :
    (valueDemands source page value).1 =
      (valueUses source.language page value).flatMap (Use.demands source) := by
  unfold valueDemands valueUses
  split
  · rfl
  · cases source.language.attributeValue? value page with
    | some entry => rfl
    | none => exact (List.flatMap_singleton _ _).symm

theorem attributeDemands_eq_flatMap (page : UInt8) (first : Attribute) :
    (attributeDemands source page first).1 =
      (attributeUses source.language page first).flatMap (Use.demands source) := by
  obtain ⟨name, value⟩ := first
  rw [attributeDemands, attributeUses]
  cases source.language.attributeStart? name value page with
  | some entry => exact valueDemands_eq_flatMap _ _
  | none =>
    dsimp only
    rw [valueDemands_eq_flatMap, List.flatMap_cons]
    rfl

theorem listDemands_eq_flatMap (page : UInt8) (list : List Attribute) :
    (listDemands source page list).1 =
      (listUses source.language page list).flatMap (Use.demands source) := by
  induction list generalizing page with
  | nil => rfl
  | cons first rest ih =>
    rw [listDemands, listUses, List.flatMap_append, ← attributeDemands_eq_flatMap, ← ih,
      attributeDemands_page]

theorem tagDemands_eq_flatMap (name : String) (code? : Option TagCode) :
    tagDemands source name code? = (tagUses name code?).flatMap (Use.demands source) := by
  cases code? with
  | some code => rfl
  | none => exact (List.flatMap_singleton _ _).symm

theorem innerData?_eq (children : List Node) (code? : Option TagCode) :
    innerData? source children code? =
      dataFor? source.language source.opaqueEncoding children code? := by
  cases code? <;> rfl

theorem innerDemands_eq_flatMap {pages : Pages} {children : List Node} {code? : Option TagCode}
    (h : (nodesDemands source pages children).1 =
      (nodesUses source.language source.opaqueEncoding pages children).flatMap (Use.demands source)) :
    (innerDemands source pages children code?).1 =
      (innerUses source.language source.opaqueEncoding pages children code?).flatMap
        (Use.demands source) := by
  unfold innerDemands innerUses
  rw [innerData?_eq]
  cases dataFor? source.language source.opaqueEncoding children code? with
  | some data => rfl
  | none => exact h

mutual

/-- What an element demands is what its uses demand. -/
theorem elementDemands_eq_flatMap : ∀ (root : Element) (pages : Pages),
    (elementDemands source pages root).1 =
      (elementUses source.language source.opaqueEncoding pages root).flatMap (Use.demands source)
  | ⟨name, uri, list, children⟩, pages => by
    rw [elementDemands_eq, elementUses_eq]
    dsimp only
    rw [tagDemands_eq_flatMap, listDemands_eq_flatMap, listDemands_page,
      innerDemands_eq_flatMap (nodesDemands_eq_flatMap children _), List.flatMap_append,
      List.flatMap_append]

theorem nodesDemands_eq_flatMap : ∀ (nodes : List Node) (pages : Pages),
    (nodesDemands source pages nodes).1 =
      (nodesUses source.language source.opaqueEncoding pages nodes).flatMap (Use.demands source)
  | [], _ => by
    rw [nodesDemands, nodesUses]
    rfl
  | .element child :: rest, pages => by
    rw [nodesDemands, nodesUses, List.flatMap_append, ← elementDemands_eq_flatMap child pages,
      ← elementDemands_pages child pages, ← nodesDemands_eq_flatMap rest]
  | .text content :: rest, pages => by
    rw [nodesDemands, nodesUses, List.flatMap_cons, ← nodesDemands_eq_flatMap rest pages]
    rfl
  | .comment content :: rest, pages => by
    rw [nodesDemands, nodesUses]
    exact nodesDemands_eq_flatMap rest pages

end

end Demands

/-! ## Tokens -/

/-- The token of a use, where a table has some entries. -/
inductive Spelt (source : Context) (entries : List String) : Use → Token → Prop
  | shared {content : String} {offset : UInt32} (shared : content ∈ source.sharedTexts)
      (refers : TableBuilder.Refers entries offset content) :
      Spelt source entries (.text content) (.tableString offset)
  | inline {content : String} (unshared : content ∉ source.sharedTexts) :
      Spelt source entries (.text content) (.inlineString content)
  | indexed {name : String} {token : UInt8} {offset : UInt32}
      (tabled : source.literalsInTable = true)
      (refers : TableBuilder.Refers entries offset name) :
      Spelt source entries (.name name) (.literal token (.indexed offset))
  | literal {name : String} {token : UInt8} (untabled : source.literalsInTable = false) :
      Spelt source entries (.name name) (.literal token (.inline name))
  | data {bytes : Bytes} : Spelt source entries (.data bytes) (.opaqueData bytes)

/-- A step lets the table grow and leaves given code pages, and its tokens spell some uses. -/
structure Spells (source : Context) (uses : List Use) (tokens : List Token) (state state' : State)
    (last : Pages) : Prop where
  grows : state.table.entries <+: state'.table.entries
  pages : state'.pages = last
  spelt : ∀ {entries : List String}, state'.table.entries <+: entries →
    List.Forall₂ (Spelt source entries) uses (tokens.filter Token.isUse)

section Steps
variable {source : Context} {state state' state'' : State} {uses uses' : List Use}
  {tokens tokens' : List Token} {middle last : Pages}

theorem Spells.append (h : Spells source uses tokens state state' middle)
    (h' : Spells source uses' tokens' state' state'' last) :
    Spells source (uses ++ uses') (tokens ++ tokens') state state'' last := by
  refine ⟨h.grows.trans h'.grows, h'.pages, fun hbegins => ?_⟩
  rw [List.filter_append]
  exact List.rel_append (h.spelt (h'.grows.trans hbegins)) (h'.spelt hbegins)

theorem spells_of_table (htable : state'.table = state.table)
    (htokens : tokens.filter Token.isUse = []) :
    Spells source [] tokens state state' state'.pages := by
  refine ⟨htable ▸ List.prefix_refl _, rfl, fun _ => ?_⟩
  rw [htokens]
  exact .nil

theorem spells_nil (source : Context) (state : State) :
    Spells source [] [] state state state.pages :=
  spells_of_table rfl rfl

theorem spells_report (source : Context) {event : Event} {value : Unit}
    (h : report event state = .ok value state') : Spells source [] [] state state' state.pages := by
  cases h
  exact spells_of_table rfl rfl

theorem spells_text {content : String} {token : Token}
    (h : text source content state = .ok token state') :
    Spells source [.text content] [token] state state' state.pages := by
  unfold text at h
  split at h
  · rename_i hshared
    obtain ⟨offset, state1, hintern, hpure⟩ := bind_eq_ok_iff.mp h
    obtain ⟨rfl, rfl⟩ := pure_eq_ok_iff.mp hpure
    obtain ⟨hrefers, ⟨more, hmore, -⟩, htag, hattribute⟩ := intern_eq_ok hintern
    refine ⟨hmore ▸ List.prefix_append _ _, Pages.ext htag hattribute, ?_⟩
    rintro _ ⟨others, rfl⟩
    exact .cons (.shared (by simpa using hshared) (hrefers.append others)) .nil
  · rename_i hunshared
    obtain ⟨bytes, state1, hlift, hpure⟩ := bind_eq_ok_iff.mp h
    obtain ⟨rfl, rfl⟩ := pure_eq_ok_iff.mp hpure
    obtain ⟨-, rfl⟩ := lift_eq_ok_iff.mp hlift
    exact ⟨List.prefix_refl _, rfl, fun _ => .cons (.inline (by simpa using hunshared)) .nil⟩

theorem spells_literalName {name : String} {literal : LiteralName}
    (h : literalName source name state = .ok literal state') (token : UInt8) :
    Spells source [.name name] [.literal token literal] state state' state.pages := by
  unfold literalName at h
  split at h
  · rename_i htabled
    obtain ⟨offset, state1, hintern, hpure⟩ := bind_eq_ok_iff.mp h
    obtain ⟨rfl, rfl⟩ := pure_eq_ok_iff.mp hpure
    obtain ⟨hrefers, ⟨more, hmore, -⟩, htag, hattribute⟩ := intern_eq_ok hintern
    refine ⟨hmore ▸ List.prefix_append _ _, Pages.ext htag hattribute, ?_⟩
    rintro _ ⟨others, rfl⟩
    exact .cons (.indexed htabled (hrefers.append others)) .nil
  · rename_i huntabled
    obtain ⟨bytes, state1, hlift, hpure⟩ := bind_eq_ok_iff.mp h
    obtain ⟨rfl, rfl⟩ := pure_eq_ok_iff.mp hpure
    obtain ⟨-, rfl⟩ := lift_eq_ok_iff.mp hlift
    exact ⟨List.prefix_refl _, rfl, fun _ => .cons (.literal (by simpa using huntabled)) .nil⟩

theorem spells_switchAttributePage (source : Context) {page : UInt8}
    (h : switchAttributePage page state = .ok tokens state') :
    Spells source [] tokens state state' ⟨state.tagPage, page⟩ := by
  rw [switchAttributePage_eq] at h
  split at h
  · rename_i hpage
    cases h
    exact hpage ▸ spells_nil source state
  · cases h
    exact spells_of_table rfl rfl

theorem spells_switchTagPage {page : UInt8} (h : switchTagPage page state = .ok tokens state') :
    Spells source [] tokens state state' ⟨page, state.attributePage⟩ := by
  rw [switchTagPage_eq] at h
  split at h
  · rename_i hpage
    cases h
    exact hpage ▸ spells_nil source state
  · cases h
    exact spells_of_table rfl rfl

/-- A token that is written for no use. -/
theorem Spells.concat (h : Spells source uses tokens state state' last) (token : Token)
    (htoken : token.isUse = false) :
    Spells source uses (tokens ++ [token]) state state' last := by
  refine ⟨h.grows, h.pages, fun hbegins => ?_⟩
  rw [List.filter_append, List.filter_cons_of_neg (by simp [htoken]), List.filter_nil,
    List.append_nil]
  exact h.spelt hbegins

theorem spells_attributeValue {value : String}
    (h : attributeValue source value state = .ok tokens state') :
    Spells source (valueUses source.language state.attributePage value) tokens state state'
      ⟨state.tagPage, pageAfterValue source.language state.attributePage value⟩ := by
  unfold valueUses pageAfterValue
  rcases attributeValue_eq_ok h with ⟨hempty, rfl, rfl⟩ |
    ⟨hsome, entry, switch, hentry, hswitch, rfl⟩ | ⟨hsome, hentry, token, htext, rfl⟩
  · rw [if_pos hempty, if_pos hempty]
    exact spells_nil source _
  · rw [hsome, hentry]
    exact (spells_switchAttributePage source hswitch).concat _ rfl
  · rw [hsome, hentry]
    exact spells_text htext

theorem spells_singleAttribute {first : Attribute}
    (h : singleAttribute source first state = .ok tokens state') :
    Spells source (attributeUses source.language state.attributePage first) tokens state state'
      ⟨state.tagPage, pageAfterAttribute source.language state.attributePage first⟩ := by
  obtain ⟨name, value⟩ := first
  rw [attributeUses, pageAfterAttribute]
  rcases singleAttribute_eq_ok h with ⟨entry, switch, rest, middle, hentry, hswitch, hvalue, rfl⟩ |
    ⟨hentry, said, literal, named, rest, hreport, hliteral, hvalue, rfl⟩
  · rw [hentry]
    have hfirst := (spells_switchAttributePage source hswitch).concat (.code entry.token) rfl
    have hpages := hfirst.pages
    have hrest := spells_attributeValue hvalue
    rw [← State.pages_tags, ← State.pages_attributes, hpages] at hrest
    rw [List.append_cons]
    exact hfirst.append hrest
  · rw [hentry]
    have hsaid := spells_report source hreport
    have hname := spells_literalName hliteral Code.literal
    have hrest := spells_attributeValue hvalue
    rw [hsaid.pages] at hname
    rw [← State.pages_tags, ← State.pages_attributes, hname.pages] at hrest
    exact hsaid.append (hname.append hrest)

theorem spells_eachAttribute {list : List Attribute}
    (h : eachAttribute source list state = .ok tokens state') :
    Spells source (listUses source.language state.attributePage list) tokens state state'
      ⟨state.tagPage, pageAfterList source.language state.attributePage list⟩ := by
  induction list generalizing state tokens with
  | nil =>
    obtain ⟨rfl, rfl⟩ := pure_eq_ok_iff.mp h
    exact spells_nil source _
  | cons first rest ih =>
    obtain ⟨front, state1, hfirst, h⟩ := bind_eq_ok_iff.mp h
    obtain ⟨back, state2, hrest, hpure⟩ := bind_eq_ok_iff.mp h
    obtain ⟨rfl, rfl⟩ := pure_eq_ok_iff.mp hpure
    have hfront := spells_singleAttribute hfirst
    have hback := ih hrest
    rw [← State.pages_tags, ← State.pages_attributes, hfront.pages] at hback
    exact hfront.append hback

theorem spells_attributes {list : List Attribute}
    (h : attributes source list state = .ok tokens state') :
    Spells source (listUses source.language state.attributePage list) tokens state state'
      ⟨state.tagPage, pageAfterList source.language state.attributePage list⟩ := by
  unfold attributes at h
  split at h
  · rename_i hempty
    obtain ⟨rfl, rfl⟩ := pure_eq_ok_iff.mp h
    rw [List.isEmpty_iff.mp hempty]
    exact spells_nil source _
  · obtain ⟨each, state1, heach, hpure⟩ := bind_eq_ok_iff.mp h
    obtain ⟨rfl, rfl⟩ := pure_eq_ok_iff.mp hpure
    exact (spells_eachAttribute heach).concat _ rfl

theorem spells_tag {name : String} {uri : Option String} {flags : UInt8} {code? : Option TagCode}
    (h : tag source name uri flags code? state = .ok tokens state') :
    Spells source (tagUses name code?) tokens state state'
      ⟨pageAfter state.tagPage code?, state.attributePage⟩ := by
  cases code? with
  | some code =>
    obtain ⟨switch, hswitch, rfl⟩ := tag_some_eq_ok h
    exact (spells_switchTagPage hswitch).concat _ rfl
  | none =>
    obtain ⟨said, literal, hreport, hliteral, rfl⟩ := tag_none_eq_ok h
    have hsaid := spells_report source hreport
    have hname := spells_literalName hliteral (Code.literal ||| flags)
    rw [hsaid.pages] at hname
    exact hsaid.append hname

/-! ## Elements -/

theorem spells_behind {depth : Nat} {name : String} {children : List Node} {code? : Option TagCode}
    (hcontent : ∀ {tokens : List Token} {state state' : State},
      content source depth children state = .ok tokens state' →
        Spells source (nodesUses source.language source.opaqueEncoding state.pages children) tokens
          state state' (pagesAfterAll source.language state.pages children))
    (h : behind source depth name children code? state = .ok tokens state') :
    Spells source (innerUses source.language source.opaqueEncoding state.pages children code?)
      tokens state state' (pagesAfterAll source.language state.pages children) := by
  unfold behind at h
  unfold innerUses
  rw [← innerData?_eq]
  split at h
  · rename_i hempty
    obtain ⟨rfl, rfl⟩ := pure_eq_ok_iff.mp h
    rw [List.isEmpty_iff.mp hempty, innerData?_nil, nodesUses, pagesAfterAll]
    exact spells_nil source _
  · obtain ⟨asked, hasked, htable, hpages⟩ := opaqueData?_eq_ok source state name children code?
    obtain ⟨data?, state1, hfirst, h⟩ := bind_eq_ok_iff.mp h
    cases hasked.symm.trans hfirst
    cases hinner : innerData? source children code? with
    | some data =>
      rw [hinner] at h
      obtain ⟨bytes, state2, hlift, hpure⟩ := bind_eq_ok_iff.mp h
      obtain ⟨rfl, rfl⟩ := pure_eq_ok_iff.mp hpure
      obtain ⟨-, rfl⟩ := lift_eq_ok_iff.mp hlift
      -- The only child is a text then, behind which the pages are the same.
      rw [innerData?_eq_some hinner]
      exact ⟨htable ▸ List.prefix_refl _, hpages, fun _ => .cons .data .nil⟩
    | none =>
      rw [hinner] at h
      obtain ⟨inner, state2, hcontentRun, hpure⟩ := bind_eq_ok_iff.mp h
      obtain ⟨rfl, rfl⟩ := pure_eq_ok_iff.mp hpure
      have hinside := (hcontent hcontentRun).concat .finish rfl
      rw [hpages] at hinside
      exact ⟨htable ▸ hinside.grows, hinside.pages, hinside.spelt⟩

mutual

/-- The tokens of an element spell its uses. -/
theorem spells_element (depth : Nat) : ∀ (root : Element) {tokens : List Token}
    {state state' : State}, element source depth root state = .ok tokens state' →
      Spells source (elementUses source.language source.opaqueEncoding state.pages root) tokens
        state state' (pagesAfter source.language state.pages root)
  | ⟨name, uri, list, children⟩, tokens, state, state', h => by
    obtain ⟨-, start, opened, attributes, listed, inner, rfl, tag, items, inside⟩ := element_eq_ok h
    have hstart := spells_tag tag
    have hlist := spells_attributes items
    have hinner := spells_behind (spells_content (depth + 1) children) inside
    rw [← State.pages_tags, ← State.pages_attributes, hstart.pages] at hlist
    rw [hlist.pages] at hinner
    rw [elementUses_eq, pagesAfter_eq, List.append_assoc]
    exact hstart.append (hlist.append hinner)

theorem spells_content (depth : Nat) : ∀ (nodes : List Node) {tokens : List Token}
    {state state' : State}, content source depth nodes state = .ok tokens state' →
      Spells source (nodesUses source.language source.opaqueEncoding state.pages nodes) tokens
        state state' (pagesAfterAll source.language state.pages nodes)
  | [], _, _, _, h => by
    obtain ⟨rfl, rfl⟩ := pure_eq_ok_iff.mp h
    rw [nodesUses, pagesAfterAll]
    exact spells_nil source _
  | .element child :: rest, tokens, state, state', h => by
    obtain ⟨front, state1, hchild, h⟩ := bind_eq_ok_iff.mp h
    obtain ⟨back, state2, hrest, hpure⟩ := bind_eq_ok_iff.mp h
    obtain ⟨rfl, rfl⟩ := pure_eq_ok_iff.mp hpure
    have hfront := spells_element depth child hchild
    have hback := spells_content depth rest hrest
    rw [hfront.pages] at hback
    rw [nodesUses, pagesAfterAll]
    exact hfront.append hback
  | .text data :: rest, tokens, state, state', h => by
    obtain ⟨first, state1, htext, h⟩ := bind_eq_ok_iff.mp h
    obtain ⟨back, state2, hrest, hpure⟩ := bind_eq_ok_iff.mp h
    obtain ⟨rfl, rfl⟩ := pure_eq_ok_iff.mp hpure
    have hfirst := spells_text htext
    have hback := spells_content depth rest hrest
    rw [hfirst.pages] at hback
    rw [nodesUses, pagesAfterAll]
    exact hfirst.append hback
  | .comment _ :: rest, tokens, state, state', h => by
    rw [nodesUses, pagesAfterAll]
    exact spells_content depth rest h

end

end Steps

end Encoding

end BinaryXml
