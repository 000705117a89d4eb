import BinaryXml.Proofs.Xml.Pieces
import BinaryXml.Xml.Parsing

/-! # The grammar that XML texts are read by

* `Parsing.Content` and `Parsing.IsElement`: a text starts with nodes and an end tag, or with an
  element.
* `Parsing.Outside`: what stands around the outermost element, and that element.
* `parseDocument_eq_ok_iff`: a text has a document if and only if the grammar says so.
-/

namespace BinaryXml

open Markup (next)

set_option autoImplicit false

namespace Parsing

/-! ## Rules -/

/-- The node that a piece without content is, if it is one. -/
def leaf? : Markup → Option (Except Error Node)
  | .text data | .cdata data => some (Node.text <$> utf8 data)
  | .reference name => some (Node.text <$> reference name)
  | .comment data => some (Node.comment <$> utf8 data)
  | _ => none

/-- Whether a piece is a start tag. -/
def startsElement : Markup → Bool
  | .empty _ | .opening _ => true
  | _ => false

theorem leaf?_of_startsElement {piece : Markup} (h : startsElement piece = true) :
    leaf? piece = none := by
  cases piece <;> first | rfl | cases h

theorem leaf?_ne_element {piece : Markup} (child : Element) :
    leaf? piece ≠ some (.ok (.element child)) := by
  have hmap {f : String → Node} {text : Except Error String} (hf : ∀ data, f data ≠ .element child) :
      f <$> text ≠ .ok (.element child) := by
    cases text with
    | error error => nofun
    | ok data => exact fun h => hf data (Except.ok.inj h)
  unfold leaf?
  split
  · exact fun h => hmap (by simp) (Option.some.inj h)
  · exact fun h => hmap (by simp) (Option.some.inj h)
  · exact fun h => hmap (by simp) (Option.some.inj h)
  · exact fun h => hmap (by simp) (Option.some.inj h)
  · nofun

/-- A text starts with a piece. -/
def Starts (text : Bytes) (piece : Markup) (rest : Bytes) : Prop :=
  text ≠ [] ∧ next text = some (piece, rest)

/-- The nodes inside an element and its end tag, with what follows. -/
inductive Content (context : Context) :
    Scope → Nat → Open → Bytes → List Node → Bytes → Prop where
  | leaf {scope : Scope} {depth : Nat} {opened : Open} {text rest last : Bytes} {piece : Markup}
      {node : Node} {nodes : List Node} (starts : Starts text piece rest)
      (single : leaf? piece = some (.ok node))
      (others : Content context scope depth opened rest nodes last) :
      Content context scope depth opened text (node :: nodes) last
  | declaration {scope : Scope} {depth : Nat} {opened : Open} {text rest last : Bytes}
      {nodes : List Node} (starts : Starts text .declaration rest)
      (others : Content context scope depth opened rest nodes last) :
      Content context scope depth opened text nodes last
  | closing {scope : Scope} {depth : Nat} {opened : Open} {text rest : Bytes}
      (starts : Starts text (.closing opened.tagName) rest) :
      Content context scope depth opened text [] rest
  | empty {scope inner : Scope} {depth : Nat} {opened : Open} {text rest last : Bytes} {tag : Tag}
      {element : Element} {nodes : List Node} (starts : Starts text (.empty tag) rest)
      (bindings : innerScope scope tag = .ok inner)
      (start : startTag context inner depth tag = .ok element)
      (others : Content context scope depth opened rest nodes last) :
      Content context scope depth opened text (.element element :: nodes) last
  | opening {scope inner : Scope} {depth : Nat} {opened : Open} {text behind rest last : Bytes}
      {tag : Tag} {element : Element} {pieces nodes : List Node}
      (starts : Starts text (.opening tag) behind) (bindings : innerScope scope tag = .ok inner)
      (start : startTag context inner depth tag = .ok element)
      (content : Content context inner (depth + 1) ⟨tag.name, element.name⟩ behind pieces rest)
      (others : Content context scope depth opened rest nodes last) :
      Content context scope depth opened text (.element (close element pieces) :: nodes) last

/-- An element at the start of a text, with what follows it. -/
inductive IsElement (context : Context) (scope : Scope) (depth : Nat) :
    Bytes → Element → Bytes → Prop where
  | empty {inner : Scope} {text rest : Bytes} {tag : Tag} {element : Element}
      (starts : Starts text (.empty tag) rest) (bindings : innerScope scope tag = .ok inner)
      (start : startTag context inner depth tag = .ok element) :
      IsElement context scope depth text element rest
  | opening {inner : Scope} {text behind rest : Bytes} {tag : Tag} {element : Element}
      {pieces : List Node} (starts : Starts text (.opening tag) behind)
      (bindings : innerScope scope tag = .ok inner)
      (start : startTag context inner depth tag = .ok element)
      (content : Content context inner (depth + 1) ⟨tag.name, element.name⟩ behind pieces rest) :
      IsElement context scope depth text (close element pieces) rest

/-- The characters of a piece of character data, if it is one. -/
def characters? : Markup → Option (Except Error String)
  | .text data | .cdata data => some (utf8 data)
  | .reference name => some (reference name)
  | _ => none

/-- Whether a piece outside of the outermost element is passed over. -/
def isPassed : Markup → Bool
  | .comment _ | .declaration => true
  | _ => false

/-- What stands around the outermost element, and that element, which may have been read before. -/
inductive Outside (context : Context) : Option Element → Bytes → Element → Prop where
  | finish {element : Element} : Outside context (some element) [] element
  | blank {root : Option Element} {text rest : Bytes} {piece : Markup} {data : String}
      {element : Element} (starts : Starts text piece rest)
      (characters : characters? piece = some (.ok data)) (blank : Blank.isBlankText data = true)
      (others : Outside context root rest element) : Outside context root text element
  | passed {root : Option Element} {text rest : Bytes} {piece : Markup} {element : Element}
      (starts : Starts text piece rest) (passed : isPassed piece = true)
      (others : Outside context root rest element) : Outside context root text element
  | doctype {text rest data : Bytes} {element : Element} (starts : Starts text (.doctype data) rest)
      (checked : checkDoctype context.language data = .ok ())
      (others : Outside context none rest element) : Outside context none text element
  | root {text rest : Bytes} {found element : Element}
      (isElement : IsElement context Scope.initial 0 text found rest)
      (others : Outside context (some found) rest element) : Outside context none text element

section Content
variable {context : Context} {scope : Scope} {depth : Nat} {opened : Open}
  {text rest last : Bytes} {nodes : List Node}

theorem Starts.unique {piece piece' : Markup} {rest' : Bytes} (h : Starts text piece rest)
    (h' : Starts text piece' rest') : piece' = piece ∧ rest' = rest := by
  have heq := h.2.symm.trans h'.2
  cases heq
  exact ⟨rfl, rfl⟩

theorem content_leaf_iff {piece : Markup} {result : Except Error Node}
    (starts : Starts text piece rest) (single : leaf? piece = some result) :
    Content context scope depth opened text nodes last ↔ ∃ node others, result = .ok node ∧
      nodes = node :: others ∧ Content context scope depth opened rest others last := by
  constructor
  · intro h
    cases h with
    | leaf starts' single' others =>
      obtain ⟨rfl, rfl⟩ := starts.unique starts'
      rw [single] at single'
      exact ⟨_, _, Option.some.inj single', rfl, others⟩
    | declaration starts' =>
      obtain ⟨rfl, -⟩ := starts.unique starts'
      cases single
    | closing starts' =>
      obtain ⟨rfl, -⟩ := starts.unique starts'
      cases single
    | empty starts' =>
      obtain ⟨rfl, -⟩ := starts.unique starts'
      cases single
    | opening starts' =>
      obtain ⟨rfl, -⟩ := starts.unique starts'
      cases single
  · rintro ⟨node, others, rfl, rfl, h⟩
    exact .leaf starts single h

theorem content_declaration_iff (starts : Starts text .declaration rest) :
    Content context scope depth opened text nodes last ↔
      Content context scope depth opened rest nodes last := by
  constructor
  · intro h
    cases h with
    | leaf starts' single' =>
      obtain ⟨rfl, -⟩ := starts.unique starts'
      cases single'
    | declaration starts' others =>
      obtain ⟨-, rfl⟩ := starts.unique starts'
      exact others
    | closing starts' => cases (starts.unique starts').1
    | empty starts' => cases (starts.unique starts').1
    | opening starts' => cases (starts.unique starts').1
  · exact .declaration starts

theorem content_closing_iff {name : Bytes} (starts : Starts text (.closing name) rest) :
    Content context scope depth opened text nodes last ↔
      name = opened.tagName ∧ nodes = [] ∧ last = rest := by
  constructor
  · intro h
    cases h with
    | leaf starts' single' =>
      obtain ⟨rfl, -⟩ := starts.unique starts'
      cases single'
    | declaration starts' => cases (starts.unique starts').1
    | closing starts' =>
      obtain ⟨hpiece, rfl⟩ := starts.unique starts'
      exact ⟨(Markup.closing.inj hpiece).symm, rfl, rfl⟩
    | empty starts' => cases (starts.unique starts').1
    | opening starts' => cases (starts.unique starts').1
  · rintro ⟨rfl, rfl, rfl⟩
    exact .closing starts

theorem content_element_iff {piece : Markup} (starts : Starts text piece rest)
    (tag : startsElement piece = true) :
    Content context scope depth opened text nodes last ↔
      ∃ element behind others, IsElement context scope depth text element behind ∧
        nodes = .element element :: others ∧
        Content context scope depth opened behind others last := by
  constructor
  · intro h
    cases h with
    | leaf starts' single' =>
      obtain ⟨rfl, -⟩ := starts.unique starts'
      rw [leaf?_of_startsElement tag] at single'
      cases single'
    | declaration starts' =>
      obtain ⟨rfl, -⟩ := starts.unique starts'
      cases tag
    | closing starts' =>
      obtain ⟨rfl, -⟩ := starts.unique starts'
      cases tag
    | empty starts' bindings start others =>
      exact ⟨_, _, _, .empty starts' bindings start, rfl, others⟩
    | opening starts' bindings start content others =>
      exact ⟨_, _, _, .opening starts' bindings start content, rfl, others⟩
  · rintro ⟨element, behind, others, isElement, rfl, h⟩
    cases isElement with
    | empty starts' bindings start => exact .empty starts' bindings start h
    | opening starts' bindings start content => exact .opening starts' bindings start content h

theorem IsElement.starts {element : Element} (h : IsElement context scope depth text element rest) :
    ∃ piece behind, Starts text piece behind ∧ startsElement piece = true := by
  cases h with
  | empty starts => exact ⟨_, _, starts, rfl⟩
  | opening starts => exact ⟨_, _, starts, rfl⟩

theorem isElement_empty_iff {tag : Tag} {element : Element} {behind : Bytes}
    (starts : Starts text (.empty tag) rest) :
    IsElement context scope depth text element behind ↔ behind = rest ∧
      ∃ inner, innerScope scope tag = .ok inner ∧ startTag context inner depth tag = .ok element := by
  constructor
  · intro h
    cases h with
    | empty starts' bindings start =>
      obtain ⟨hpiece, rfl⟩ := starts.unique starts'
      cases hpiece
      exact ⟨rfl, _, bindings, start⟩
    | opening starts' => cases (starts.unique starts').1
  · rintro ⟨rfl, inner, bindings, start⟩
    exact .empty starts bindings start

theorem isElement_opening_iff {tag : Tag} {element : Element} {behind : Bytes}
    (starts : Starts text (.opening tag) rest) :
    IsElement context scope depth text element behind ↔
      ∃ inner head pieces, innerScope scope tag = .ok inner ∧
        startTag context inner depth tag = .ok head ∧
        Content context inner (depth + 1) ⟨tag.name, head.name⟩ rest pieces behind ∧
        element = close head pieces := by
  constructor
  · intro h
    cases h with
    | empty starts' => cases (starts.unique starts').1
    | opening starts' bindings start content =>
      obtain ⟨hpiece, rfl⟩ := starts.unique starts'
      cases hpiece
      exact ⟨_, _, _, bindings, start, content, rfl⟩
  · rintro ⟨inner, head, pieces, bindings, start, content, rfl⟩
    exact .opening starts bindings start content

theorem not_content_of_starts {piece : Markup} (starts : Starts text piece rest)
    (hleaf : leaf? piece = none) (hdeclaration : piece ≠ .declaration)
    (htag : piece.isTag = false) : ¬ Content context scope depth opened text nodes last := by
  intro h
  cases h with
  | leaf starts' single =>
    obtain ⟨rfl, -⟩ := starts.unique starts'
    rw [hleaf] at single
    cases single
  | declaration starts' => exact hdeclaration (starts.unique starts').1.symm
  | closing starts' =>
    obtain ⟨rfl, -⟩ := starts.unique starts'
    cases htag
  | empty starts' =>
    obtain ⟨rfl, -⟩ := starts.unique starts'
    cases htag
  | opening starts' =>
    obtain ⟨rfl, -⟩ := starts.unique starts'
    cases htag

theorem content_cons_element {element : Element} {behind : Bytes}
    (isElement : IsElement context scope depth text element behind)
    (others : Content context scope depth opened behind nodes last) :
    Content context scope depth opened text (.element element :: nodes) last := by
  obtain ⟨piece, rest, starts, tag⟩ := isElement.starts
  exact (content_element_iff starts tag).mpr ⟨element, behind, nodes, isElement, rfl, others⟩

end Content

/-! ## Reading by the rules -/

theorem bind_eq_ok_iff {ε α β : Type} {first : Except ε α} {next : α → Except ε β} {value : β} :
    first >>= next = .ok value ↔ ∃ a, first = .ok a ∧ next a = .ok value := by
  cases first with
  | error error =>
    constructor
    · rintro ⟨⟩
    · rintro ⟨a, ⟨⟩, -⟩
  | ok a =>
    constructor
    · intro h
      exact ⟨a, rfl, h⟩
    · rintro ⟨_, ⟨⟩, h⟩
      exact h

theorem bind_eq_error_iff {ε α β : Type} {first : Except ε α} {next : α → Except ε β} {error : ε} :
    first >>= next = .error error ↔
      first = .error error ∨ ∃ a, first = .ok a ∧ next a = .error error := by
  cases first with
  | error fault =>
    constructor
    · rintro ⟨⟩
      exact .inl rfl
    · rintro (⟨⟨⟩⟩ | ⟨a, ⟨⟩, -⟩)
      rfl
  | ok a =>
    constructor
    · intro h
      exact .inr ⟨a, rfl, h⟩
    · rintro (⟨⟨⟩⟩ | ⟨_, ⟨⟩, h⟩)
      exact h

theorem check_eq_ok_iff {ε α : Type} {first : Except ε Unit} {next : Except ε α} {value : α} :
    (first >>= fun _ => next) = .ok value ↔ first = .ok () ∧ next = .ok value := by
  rw [bind_eq_ok_iff]
  constructor
  · rintro ⟨_, hfirst, hnext⟩
    exact ⟨hfirst, hnext⟩
  · rintro ⟨hfirst, hnext⟩
    exact ⟨(), hfirst, hnext⟩

theorem map_eq_ok_iff {ε α β : Type} {first : Except ε α} {f : α → β} {value : β} :
    f <$> first = .ok value ↔ ∃ a, first = .ok a ∧ f a = value := by
  cases first with
  | error error =>
    constructor
    · rintro ⟨⟩
    · rintro ⟨a, ⟨⟩, -⟩
  | ok a =>
    constructor
    · rintro ⟨⟩
      exact ⟨a, rfl, rfl⟩
    · rintro ⟨_, ⟨⟩, rfl⟩
      rfl

section Content
variable {context : Context} {scope : Scope} {depth : Nat} {opened : Open}
  {text rest last : Bytes} {nodes : List Node}

theorem followed_eq_ok_iff {node : Node} {others : Except Error (List Node × Bytes)} :
    (others >>= fun found => pure (node :: found.1, found.2)) = .ok (nodes, last) ↔
      ∃ rest, others = .ok (rest, last) ∧ nodes = node :: rest := by
  rw [bind_eq_ok_iff]
  constructor
  · rintro ⟨⟨found, behind⟩, rfl, heq⟩
    cases heq
    exact ⟨found, rfl, rfl⟩
  · rintro ⟨rest, rfl, rfl⟩
    exact ⟨(rest, last), rfl, rfl⟩

theorem not_content_nil : ¬ Content context scope depth opened [] nodes last := by
  intro h
  cases h with
  | leaf starts => exact starts.1 rfl
  | declaration starts => exact starts.1 rfl
  | closing starts => exact starts.1 rfl
  | empty starts => exact starts.1 rfl
  | opening starts => exact starts.1 rfl

theorem starts_of_content (h : Content context scope depth opened text nodes last) :
    ∃ piece rest, Starts text piece rest := by
  cases h with
  | leaf starts => exact ⟨_, _, starts⟩
  | declaration starts => exact ⟨_, _, starts⟩
  | closing starts => exact ⟨_, _, starts⟩
  | empty starts => exact ⟨_, _, starts⟩
  | opening starts => exact ⟨_, _, starts⟩

/-- A piece without content is read before the others. -/
theorem leaf_eq_ok_iff {α : Type} {piece : Markup} {first : Except Error α} {f : α → Node}
    {others : Except Error (List Node × Bytes)} (starts : Starts text piece rest)
    (single : leaf? piece = some (f <$> first))
    (h : ∀ nodes, others = .ok (nodes, last) ↔ Content context scope depth opened rest nodes last) :
    (first >>= fun a => others >>= fun found => pure (f a :: found.1, found.2)) =
      .ok (nodes, last) ↔ Content context scope depth opened text nodes last := by
  rw [content_leaf_iff starts single, bind_eq_ok_iff]
  simp only [followed_eq_ok_iff, map_eq_ok_iff, h]
  constructor
  · rintro ⟨a, hfirst, found, hfound, rfl⟩
    exact ⟨f a, found, ⟨a, hfirst, rfl⟩, rfl, hfound⟩
  · rintro ⟨node, found, ⟨a, hfirst, rfl⟩, rfl, hfound⟩
    exact ⟨a, hfirst, found, hfound, rfl⟩

theorem empty_eq_ok_iff {tag : Tag} {others : Except Error (List Node × Bytes)}
    (starts : Starts text (.empty tag) rest)
    (h : ∀ nodes, others = .ok (nodes, last) ↔ Content context scope depth opened rest nodes last) :
    (innerScope scope tag >>= fun inner => startTag context inner depth tag >>= fun element =>
      others >>= fun found => pure (Node.element element :: found.1, found.2)) =
        .ok (nodes, last) ↔ Content context scope depth opened text nodes last := by
  rw [content_element_iff starts rfl]
  constructor
  · intro hread
    obtain ⟨inner, hinner, hread⟩ := bind_eq_ok_iff.mp hread
    obtain ⟨element, hstart, hread⟩ := bind_eq_ok_iff.mp hread
    obtain ⟨found, hfound, rfl⟩ := followed_eq_ok_iff.mp hread
    exact ⟨element, rest, found, .empty starts hinner hstart, rfl, (h found).mp hfound⟩
  · rintro ⟨element, behind, found, isElement, rfl, hfound⟩
    obtain ⟨rfl, inner, hinner, hstart⟩ := (isElement_empty_iff starts).mp isElement
    rw [hinner, bind_eq_ok_iff]
    refine ⟨inner, rfl, ?_⟩
    rw [hstart]
    exact followed_eq_ok_iff.mpr ⟨found, (h found).mpr hfound, rfl⟩

theorem opening_eq_ok_iff {tag : Tag} {inside : Scope → Element → Except Error (List Node × Bytes)}
    {others : Bytes → Except Error (List Node × Bytes)} (starts : Starts text (.opening tag) rest)
    (hinside : ∀ inner head pieces behind, inside inner head = .ok (pieces, behind) ↔
      Content context inner (depth + 1) ⟨tag.name, head.name⟩ rest pieces behind)
    (h : ∀ inner head pieces behind nodes, inside inner head = .ok (pieces, behind) →
      (others behind = .ok (nodes, last) ↔
        Content context scope depth opened behind nodes last)) :
    (innerScope scope tag >>= fun inner => startTag context inner depth tag >>= fun head =>
      inside inner head >>= fun content => others content.2 >>= fun found =>
        pure (Node.element (close head content.1) :: found.1, found.2)) =
          .ok (nodes, last) ↔ Content context scope depth opened text nodes last := by
  rw [content_element_iff starts rfl]
  constructor
  · intro hread
    obtain ⟨inner, hinner, hread⟩ := bind_eq_ok_iff.mp hread
    obtain ⟨head, hstart, hread⟩ := bind_eq_ok_iff.mp hread
    obtain ⟨⟨pieces, behind⟩, hcontent, hread⟩ := bind_eq_ok_iff.mp hread
    obtain ⟨found, hfound, rfl⟩ := followed_eq_ok_iff.mp hread
    exact ⟨close head pieces, behind, found,
      .opening starts hinner hstart ((hinside _ _ _ _).mp hcontent), rfl,
      (h _ _ _ _ _ hcontent).mp hfound⟩
  · rintro ⟨element, behind, found, isElement, rfl, hfound⟩
    obtain ⟨inner, head, pieces, hinner, hstart, hcontent, rfl⟩ :=
      (isElement_opening_iff starts).mp isElement
    have hpieces := (hinside _ _ _ _).mpr hcontent
    rw [hinner, bind_eq_ok_iff]
    refine ⟨inner, rfl, ?_⟩
    rw [hstart, bind_eq_ok_iff]
    refine ⟨head, rfl, ?_⟩
    rw [hpieces, bind_eq_ok_iff]
    refine ⟨(pieces, behind), rfl, ?_⟩
    exact followed_eq_ok_iff.mpr ⟨found, (h _ _ _ _ _ hpieces).mpr hfound, rfl⟩

theorem length_lt_of_content (h : Content context scope depth opened text nodes last) :
    last.length < text.length := by
  have hstarts {text rest : Bytes} {piece : Markup} (h : Starts text piece rest) :
      rest.length < text.length := by
    obtain ⟨hne, hnext⟩ := h
    cases text with
    | nil => exact absurd rfl hne
    | cons b text => exact Markup.length_lt_of_next hnext
  induction h with
  | leaf starts _ _ ih => exact Nat.lt_trans ih (hstarts starts)
  | declaration starts _ ih => exact Nat.lt_trans ih (hstarts starts)
  | closing starts => exact hstarts starts
  | empty starts _ _ _ ih => exact Nat.lt_trans ih (hstarts starts)
  | opening starts _ _ _ _ ihContent ih =>
    exact Nat.lt_trans ih (Nat.lt_trans ihContent (hstarts starts))

/-- Content is read by the rules. -/
theorem content_eq_ok_iff (bound : Nat) {scope : Scope} {depth : Nat} {opened : Open}
    {text last : Bytes} {nodes : List Node} (h : text.length ≤ bound) :
    content context bound scope depth opened text = .ok (nodes, last) ↔
      Content context scope depth opened text nodes last := by
  -- By the number of bytes: a piece takes one at least, and so does the content of a child
  -- (`length_lt_of_content`), behind which the reader goes on.
  induction bound generalizing scope depth opened text nodes last with
  | zero =>
    have hnil := List.eq_nil_of_length_eq_zero (Nat.le_zero.mp h)
    subst hnil
    exact iff_of_false nofun not_content_nil
  | succ bound ih =>
    cases text with
    | nil => exact iff_of_false nofun not_content_nil
    | cons b text =>
      cases hnext : next (b :: text) with
      | none =>
        refine iff_of_false ?_ fun hcontent => ?_
        · unfold content
          rw [hnext]
          nofun
        · obtain ⟨piece, rest, -, hpiece⟩ := starts_of_content hcontent
          rw [hnext] at hpiece
          cases hpiece
      | some found =>
        obtain ⟨piece, rest⟩ := found
        have hlt := Markup.length_lt_of_next hnext
        have hrest : rest.length ≤ bound := by omega
        have starts : Starts (b :: text) piece rest := ⟨by simp, hnext⟩
        unfold content
        rw [hnext]
        dsimp only [required]
        cases piece with
        | text data => exact leaf_eq_ok_iff starts rfl fun nodes => ih hrest
        | cdata data => exact leaf_eq_ok_iff starts rfl fun nodes => ih hrest
        | reference name => exact leaf_eq_ok_iff starts rfl fun nodes => ih hrest
        | comment data => exact leaf_eq_ok_iff starts rfl fun nodes => ih hrest
        | declaration => exact (ih hrest).trans (content_declaration_iff starts).symm
        | doctype data =>
          exact iff_of_false nofun (not_content_of_starts starts rfl nofun rfl)
        | instruction target =>
          exact iff_of_false nofun (not_content_of_starts starts rfl nofun rfl)
        | closing name =>
          rw [content_closing_iff starts]
          change (if name = opened.tagName then Except.ok ([], rest) else grammarFault) = _ ↔ _
          split
          · rename_i hname
            constructor
            · rintro ⟨⟩
              exact ⟨hname, rfl, rfl⟩
            · rintro ⟨-, rfl, rfl⟩
              rfl
          · rename_i hname
            exact iff_of_false nofun fun h => hname h.1
        | empty tag => exact empty_eq_ok_iff starts fun nodes => ih hrest
        | opening tag =>
          refine opening_eq_ok_iff starts (fun inner head pieces behind => ih hrest) ?_
          intro inner head pieces behind nodes hinside
          have hbehind := length_lt_of_content ((ih hrest).mp hinside)
          exact ih (by omega)

end Content

section Outside
variable {context : Context} {root : Option Element} {text rest : Bytes} {element : Element}

theorem characters?_of_isPassed {piece : Markup} (h : isPassed piece = true) :
    characters? piece = none := by
  cases piece <;> first | rfl | cases h

theorem characters?_of_startsElement {piece : Markup} (h : startsElement piece = true) :
    characters? piece = none := by
  cases piece <;> first | rfl | cases h

theorem isPassed_of_startsElement {piece : Markup} (h : startsElement piece = true) :
    isPassed piece = false := by
  cases piece <;> first | rfl | cases h

theorem outside_nil_iff : Outside context root [] element ↔ root = some element := by
  constructor
  · intro h
    cases h with
    | finish => rfl
    | blank starts => exact absurd rfl starts.1
    | passed starts => exact absurd rfl starts.1
    | doctype starts => exact absurd rfl starts.1
    | root isElement =>
      obtain ⟨piece, behind, starts, -⟩ := isElement.starts
      exact absurd rfl starts.1
  · rintro rfl
    exact .finish

theorem outside_characters_iff {piece : Markup} {result : Except Error String}
    (starts : Starts text piece rest) (single : characters? piece = some result) :
    Outside context root text element ↔ ∃ data, result = .ok data ∧
      Blank.isBlankText data = true ∧ Outside context root rest element := by
  constructor
  · intro h
    cases h with
    | finish => exact absurd rfl starts.1
    | blank starts' single' hblank others =>
      obtain ⟨rfl, rfl⟩ := starts.unique starts'
      rw [single] at single'
      exact ⟨_, Option.some.inj single', hblank, others⟩
    | passed starts' passed =>
      rw [(starts.unique starts').1] at passed
      rw [characters?_of_isPassed passed] at single
      cases single
    | doctype starts' =>
      obtain ⟨rfl, -⟩ := starts.unique starts'
      cases single
    | root isElement =>
      obtain ⟨piece', behind, starts', tag⟩ := isElement.starts
      rw [(starts.unique starts').1] at tag
      rw [characters?_of_startsElement tag] at single
      cases single
  · rintro ⟨data, rfl, hblank, others⟩
    exact .blank starts single hblank others

theorem outside_passed_iff {piece : Markup} (starts : Starts text piece rest)
    (passed : isPassed piece = true) :
    Outside context root text element ↔ Outside context root rest element := by
  constructor
  · intro h
    cases h with
    | finish => exact absurd rfl starts.1
    | blank starts' single =>
      rw [(starts.unique starts').1, characters?_of_isPassed passed] at single
      cases single
    | passed starts' _ others =>
      obtain ⟨-, rfl⟩ := starts.unique starts'
      exact others
    | doctype starts' =>
      obtain ⟨rfl, -⟩ := starts.unique starts'
      cases passed
    | root isElement =>
      obtain ⟨piece', behind, starts', tag⟩ := isElement.starts
      rw [(starts.unique starts').1] at tag
      rw [isPassed_of_startsElement tag] at passed
      cases passed
  · exact .passed starts passed

theorem outside_doctype_iff {data : Bytes} (starts : Starts text (.doctype data) rest) :
    Outside context root text element ↔ root = none ∧
      checkDoctype context.language data = .ok () ∧ Outside context none rest element := by
  constructor
  · intro h
    cases h with
    | finish => exact absurd rfl starts.1
    | blank starts' single =>
      obtain ⟨rfl, -⟩ := starts.unique starts'
      cases single
    | passed starts' passed =>
      obtain ⟨rfl, -⟩ := starts.unique starts'
      cases passed
    | doctype starts' checked others =>
      obtain ⟨hpiece, rfl⟩ := starts.unique starts'
      cases hpiece
      exact ⟨rfl, checked, others⟩
    | root isElement =>
      obtain ⟨piece', behind, starts', tag⟩ := isElement.starts
      obtain ⟨rfl, -⟩ := starts.unique starts'
      cases tag
  · rintro ⟨rfl, checked, others⟩
    exact .doctype starts checked others

theorem outside_element_iff {piece : Markup} (starts : Starts text piece rest)
    (tag : startsElement piece = true) :
    Outside context root text element ↔ root = none ∧ ∃ found behind,
      IsElement context Scope.initial 0 text found behind ∧
        Outside context (some found) behind element := by
  constructor
  · intro h
    cases h with
    | finish => exact absurd rfl starts.1
    | blank starts' single =>
      rw [(starts.unique starts').1, characters?_of_startsElement tag] at single
      cases single
    | passed starts' passed =>
      rw [(starts.unique starts').1, isPassed_of_startsElement tag] at passed
      cases passed
    | doctype starts' =>
      obtain ⟨rfl, -⟩ := starts.unique starts'
      cases tag
    | root isElement others => exact ⟨rfl, _, _, isElement, others⟩
  · rintro ⟨rfl, found, behind, isElement, others⟩
    exact .root isElement others

theorem not_outside_of_starts {piece : Markup} (starts : Starts text piece rest)
    (hcharacters : characters? piece = none) (hpassed : isPassed piece = false)
    (hdoctype : ∀ data, piece ≠ .doctype data) (htag : startsElement piece = false) :
    ¬ Outside context root text element := by
  intro h
  cases h with
  | finish => exact absurd rfl starts.1
  | blank starts' single =>
    obtain ⟨rfl, -⟩ := starts.unique starts'
    rw [hcharacters] at single
    cases single
  | passed starts' passed =>
    obtain ⟨rfl, -⟩ := starts.unique starts'
    rw [hpassed] at passed
    cases passed
  | doctype starts' => exact hdoctype _ (starts.unique starts').1.symm
  | root isElement =>
    obtain ⟨piece', behind, starts', tag⟩ := isElement.starts
    obtain ⟨rfl, -⟩ := starts.unique starts'
    rw [htag] at tag
    cases tag

/-- The outermost element is the only one. -/
theorem eq_of_outside {found : Element} (h : Outside context (some found) text element) :
    element = found := by
  generalize hroot : some found = root at h
  induction h with
  | finish => exact (Option.some.inj hroot).symm
  | blank _ _ _ _ ih => exact ih hroot
  | passed _ _ _ ih => exact ih hroot
  | doctype => cases hroot
  | root => cases hroot

theorem exists_isElement_of_outside (h : Outside context none text element) :
    ∃ front behind, IsElement context Scope.initial 0 front element behind := by
  generalize hroot : (none : Option Element) = root at h
  induction h with
  | finish => cases hroot
  | blank _ _ _ _ ih => exact ih hroot
  | passed _ _ _ ih => exact ih hroot
  | doctype _ _ _ ih => exact ih rfl
  | root isElement others =>
    rw [eq_of_outside others]
    exact ⟨_, _, isElement⟩

theorem starts_of_outside {b : UInt8} (h : Outside context root (b :: text) element) :
    ∃ piece rest, next (b :: text) = some (piece, rest) := by
  cases h with
  | blank starts => exact ⟨_, _, starts.2⟩
  | passed starts => exact ⟨_, _, starts.2⟩
  | doctype starts => exact ⟨_, _, starts.2⟩
  | root isElement =>
    obtain ⟨piece, behind, starts, -⟩ := isElement.starts
    exact ⟨piece, behind, starts.2⟩

theorem checkBlank_eq_ok_iff {data : String} :
    checkBlank data = .ok () ↔ Blank.isBlankText data = true := by
  unfold checkBlank
  split
  · rename_i hblank
    exact iff_of_true rfl hblank
  · rename_i hblank
    exact iff_of_false nofun hblank

theorem checkFirst_eq_ok_iff : checkFirst root = .ok () ↔ root = none := by
  cases root with
  | none => exact iff_of_true rfl rfl
  | some element => exact iff_of_false nofun nofun

theorem characters_eq_ok_iff {piece : Markup} {data : Except Error String}
    {others : Except Error Element} (starts : Starts text piece rest)
    (single : characters? piece = some data)
    (h : others = .ok element ↔ Outside context root rest element) :
    (data >>= fun data => checkBlank data >>= fun _ => others) = .ok element ↔
      Outside context root text element := by
  rw [outside_characters_iff starts single, ← h]
  simp only [@bind_eq_ok_iff _ _ _ data, check_eq_ok_iff, checkBlank_eq_ok_iff]

theorem outermost_empty_eq_ok_iff {tag : Tag} {others : Element → Except Error Element}
    (starts : Starts text (.empty tag) rest)
    (h : ∀ found, others found = .ok element ↔ Outside context (some found) rest element) :
    (innerScope Scope.initial tag >>= fun inner => checkFirst root >>= fun _ =>
      startTag context inner 0 tag >>= others) = .ok element ↔
        Outside context root text element := by
  rw [outside_element_iff starts rfl]
  constructor
  · intro hread
    obtain ⟨inner, hinner, hread⟩ := bind_eq_ok_iff.mp hread
    obtain ⟨hfirst, hread⟩ := check_eq_ok_iff.mp hread
    obtain ⟨found, hstart, hread⟩ := bind_eq_ok_iff.mp hread
    exact ⟨checkFirst_eq_ok_iff.mp hfirst, found, rest, .empty starts hinner hstart,
      (h found).mp hread⟩
  · rintro ⟨rfl, found, behind, isElement, houtside⟩
    obtain ⟨rfl, inner, hinner, hstart⟩ := (isElement_empty_iff starts).mp isElement
    exact bind_eq_ok_iff.mpr ⟨inner, hinner, check_eq_ok_iff.mpr ⟨rfl,
      bind_eq_ok_iff.mpr ⟨found, hstart, (h found).mpr houtside⟩⟩⟩

theorem outermost_opening_eq_ok_iff {bound : Nat} {tag : Tag}
    {others : Element → Bytes → Except Error Element} (starts : Starts text (.opening tag) rest)
    (hrest : rest.length ≤ bound) (h : ∀ found behind, behind.length ≤ bound →
      (others found behind = .ok element ↔ Outside context (some found) behind element)) :
    (innerScope Scope.initial tag >>= fun inner => checkFirst root >>= fun _ =>
      startTag context inner 0 tag >>= fun head =>
        content context bound inner 1 ⟨tag.name, head.name⟩ rest >>= fun inside =>
          others (close head inside.1) inside.2) = .ok element ↔
            Outside context root text element := by
  rw [outside_element_iff starts rfl]
  constructor
  · intro hread
    obtain ⟨inner, hinner, hread⟩ := bind_eq_ok_iff.mp hread
    obtain ⟨hfirst, hread⟩ := check_eq_ok_iff.mp hread
    obtain ⟨head, hstart, hread⟩ := bind_eq_ok_iff.mp hread
    obtain ⟨⟨pieces, behind⟩, hcontent, hread⟩ := bind_eq_ok_iff.mp hread
    have hpieces := (content_eq_ok_iff bound hrest).mp hcontent
    have hbehind := length_lt_of_content hpieces
    exact ⟨checkFirst_eq_ok_iff.mp hfirst, close head pieces, behind,
      .opening starts hinner hstart hpieces, (h _ _ (by omega)).mp hread⟩
  · rintro ⟨rfl, found, behind, isElement, houtside⟩
    obtain ⟨inner, head, pieces, hinner, hstart, hpieces, rfl⟩ :=
      (isElement_opening_iff starts).mp isElement
    have hbehind : behind.length ≤ bound :=
      Nat.le_trans (Nat.le_of_lt (length_lt_of_content hpieces)) hrest
    have hcontent := (content_eq_ok_iff bound hrest).mpr hpieces
    exact bind_eq_ok_iff.mpr ⟨inner, hinner, check_eq_ok_iff.mpr ⟨rfl,
      bind_eq_ok_iff.mpr ⟨head, hstart, bind_eq_ok_iff.mpr ⟨(pieces, behind), hcontent,
        (h _ behind hbehind).mpr houtside⟩⟩⟩⟩

/-- What stands around the outermost element is read by the rules. -/
theorem outside_eq_ok_iff (bound : Nat) {root : Option Element} {text : Bytes} {element : Element}
    (h : text.length ≤ bound) :
    outside context bound root text = .ok element ↔ Outside context root text element := by
  have hend (bound : Nat) (root : Option Element) :
      outside context bound root [] = .ok element ↔ Outside context root [] element := by
    rw [outside_nil_iff]
    cases bound <;> cases root <;> simp [outside]
  -- By the number of bytes, like content; the root is found at most once on the way.
  induction bound generalizing root text with
  | zero =>
    have hnil := List.eq_nil_of_length_eq_zero (Nat.le_zero.mp h)
    subst hnil
    exact hend 0 root
  | succ bound ih =>
    cases text with
    | nil => exact hend (bound + 1) root
    | cons b text =>
      cases hnext : next (b :: text) with
      | none =>
        refine iff_of_false ?_ fun houtside => ?_
        · unfold outside
          rw [hnext]
          nofun
        · obtain ⟨piece, rest, hpiece⟩ := starts_of_outside houtside
          rw [hnext] at hpiece
          cases hpiece
      | some found =>
        obtain ⟨piece, rest⟩ := found
        have hlt := Markup.length_lt_of_next hnext
        have hrest : rest.length ≤ bound := by omega
        have starts : Starts (b :: text) piece rest := ⟨by simp, hnext⟩
        unfold outside
        rw [hnext]
        dsimp only [required]
        cases piece with
        | text data => exact characters_eq_ok_iff starts rfl (ih hrest)
        | cdata data => exact characters_eq_ok_iff starts rfl (ih hrest)
        | reference name => exact characters_eq_ok_iff starts rfl (ih hrest)
        | comment data => exact (ih hrest).trans (outside_passed_iff starts rfl).symm
        | declaration => exact (ih hrest).trans (outside_passed_iff starts rfl).symm
        | doctype data =>
          rw [outside_doctype_iff starts]
          cases root with
          | some element => exact iff_of_false nofun nofun
          | none =>
            refine check_eq_ok_iff.trans ?_
            simp only [ih hrest, true_and]
        | instruction target =>
          exact iff_of_false nofun (not_outside_of_starts starts rfl rfl nofun rfl)
        | closing name =>
          exact iff_of_false nofun (not_outside_of_starts starts rfl rfl nofun rfl)
        | empty tag => exact outermost_empty_eq_ok_iff starts fun found => ih hrest
        | opening tag =>
          exact outermost_opening_eq_ok_iff starts hrest fun found behind hbehind => ih hbehind

end Outside

end Parsing

/-- A text has a document if and only if the grammar says so, behind the mark of its encoding. -/
theorem parseDocument_eq_ok_iff {language : Language} {maxDepth : Nat} {text : Bytes}
    {document : Document} : parseDocument language maxDepth text = .ok document ↔
      Parsing.Outside ⟨language, maxDepth⟩ none ((Markup.after byteOrderMark text).getD text)
        document.root := by
  unfold parseDocument
  dsimp only
  rw [Parsing.map_eq_ok_iff]
  simp only [Parsing.outside_eq_ok_iff _ (Nat.le_refl _)]
  constructor
  · rintro ⟨root, houtside, rfl⟩
    exact houtside
  · intro houtside
    exact ⟨document.root, houtside, rfl⟩

end BinaryXml
