import BinaryXml.Proofs.Stream.Steps

/-! # Reading attribute lists

The decoder meets the tokens of a list one by one and keeps the attribute that it is in.

* `Pending` is the grammar from its point of view: what may follow when an attribute has been
  started, or none.
* `pending_cons_iff`: what follows is determined by the next byte, one case per kind of token.
* `reads_attributes`: the lists of the grammar are the ones that are read.
-/

namespace BinaryXml.Decoding

open Grammar

set_option autoImplicit false

/-! ## Lists that have begun -/

section Attributes
variable {context : Context} {state : State}

/-- What may follow the start of an attribute: pieces of its value, and then other attributes.
Without an attribute that was started, a whole list follows. -/
inductive Pending (context : Context) :
    Option Attribute → UInt8 → Bytes → List Attribute → UInt8 → Prop
  | fresh {page last : UInt8} {bytes : Bytes} {list : List Attribute}
      (rest : AttributeList context page bytes list last) : Pending context none page bytes list last
  | started {page next last : UInt8} {front back : Bytes} {name value more : String}
      {others : List Attribute} (pieces : ValuePieces context page front more next)
      (rest : AttributeList context next back others last) :
      Pending context (some ⟨name, value⟩) page (front ++ back) (⟨name, value ++ more⟩ :: others) last

/-- The same behind one byte, by what the byte is. -/
def Pending.After (context : Context) (current : Option Attribute) (page token : UInt8)
    (bytes : Bytes) (list : List Attribute) (last : UInt8) : AttributeToken → Prop
  | .finish => bytes = [] ∧ list = current.toList ∧ last = page
  | .switchPage => ∃ new rest, bytes = new :: rest ∧ Pending context current new rest list last
  | .literal => ∃ name front back others, bytes = front ++ back ∧ Grammar.LiteralName context front name ∧
      Pending context (some ⟨name, ""⟩) page back others last ∧ list = current.toList ++ others
  | .string kind => ∃ name value text front back, current = some ⟨name, value⟩ ∧
      bytes = front ++ back ∧ Operand context kind front text ∧
        Pending context (some ⟨name, value ++ text⟩) page back list last
  | .reserved => False
  | .start => ∃ entry others, context.language.attributeStartAt? page token = some entry ∧
      Pending context (some ⟨entry.name, entry.valueStart⟩) page bytes others last ∧
        list = current.toList ++ others
  | .value => ∃ name value entry, current = some ⟨name, value⟩ ∧
      context.language.attributeValueAt? page token = some entry ∧
        Pending context (some ⟨name, value ++ entry.value⟩) page bytes list last

theorem not_attributeList_nil {page last : UInt8} {list : List Attribute} :
    ¬ AttributeList context page [] list last := by
  intro h
  cases h

theorem not_pending_nil {current : Option Attribute} {page last : UInt8} {list : List Attribute} :
    ¬ Pending context current page [] list last := by
  intro h
  generalize hbytes : ([] : Bytes) = bytes at h
  cases h with
  | fresh rest => exact not_attributeList_nil (hbytes ▸ rest)
  | started pieces rest =>
    obtain ⟨-, rfl⟩ := List.append_eq_nil_iff.mp hbytes.symm
    exact not_attributeList_nil rest

/-- An attribute without pieces of its value is one that was started. -/
theorem pending_of_list {page last : UInt8} {bytes : Bytes} {others : List Attribute}
    (current : Option Attribute) (h : AttributeList context page bytes others last) :
    Pending context current page bytes (current.toList ++ others) last := by
  cases current with
  | none => exact .fresh h
  | some started =>
    have hpending : Pending context (some started) page ([] ++ bytes)
      (⟨started.name, started.value ++ ""⟩ :: others) last := .started .nothing h
    rwa [String.append_empty] at hpending

theorem after_of_list {page token last : UInt8} {bytes : Bytes} {others : List Attribute}
    (current : Option Attribute) (h : AttributeList context page (token :: bytes) others last) :
    Pending.After context current page token bytes (current.toList ++ others) last
      (AttributeToken.ofByte token) := by
  cases h with
  | finish => exact ⟨rfl, List.append_nil _, rfl⟩
  | switchPage rest => exact ⟨_, _, rfl, pending_of_list current rest⟩
  | item start pieces rest =>
    cases start with
    | literal literal => exact ⟨_, _, _, _, rfl, literal, .started pieces rest, rfl⟩
    | @registered _ entry base low found =>
      rw [AttributeToken.ofByte_eq_start base low, List.nil_append]
      exact ⟨entry, _, found, .started pieces rest, rfl⟩

theorem after_of_pending {current : Option Attribute} {page token last : UInt8} {bytes : Bytes}
    {list : List Attribute} (h : Pending context current page (token :: bytes) list last) :
    Pending.After context current page token bytes list last (AttributeToken.ofByte token) := by
  generalize hbytes : token :: bytes = all at h
  cases h with
  | fresh rest =>
    subst hbytes
    exact after_of_list none rest
  | @started _ _ _ front back name value more others pieces rest =>
    -- The byte belongs to the value as long as there is a piece of it.
    cases pieces with
    | nothing =>
      subst hbytes
      rw [String.append_empty]
      exact after_of_list (some ⟨name, value⟩) rest
    | switchPage pieces =>
      cases hbytes
      exact ⟨_, _, rfl, .started pieces rest⟩
    | string first pieces =>
      cases hbytes
      rw [AttributeToken.ofByte_code, ← String.append_assoc]
      exact ⟨name, value, _, _, _, rfl, List.append_assoc _ _ _, first, .started pieces rest⟩
    | @registered _ _ _ entry _ _ base high found pieces =>
      cases hbytes
      rw [AttributeToken.ofByte_eq_value base high, ← String.append_assoc]
      exact ⟨name, value, entry, rfl, found, .started pieces rest⟩

theorem pending_of_after {current : Option Attribute} {page token last : UInt8} {bytes : Bytes}
    {list : List Attribute} {sort : AttributeToken} (hsort : sort.Sorts token)
    (h : Pending.After context current page token bytes list last sort) :
    Pending context current page (token :: bytes) list last := by
  cases sort with
  | finish =>
    obtain ⟨rfl, rfl, rfl⟩ := h
    cases hsort
    simpa using pending_of_list current .finish
  | switchPage =>
    obtain ⟨new, rest, rfl, h⟩ := h
    cases hsort
    cases h with
    | fresh rest => exact .fresh (.switchPage rest)
    | started pieces rest => exact .started (.switchPage pieces) rest
  | literal =>
    obtain ⟨name, front, back, others, rfl, hname, h, rfl⟩ := h
    cases hsort
    cases h with
    | started pieces rest => exact pending_of_list current (.item (.literal hname) pieces rest)
  | string kind =>
    obtain ⟨name, value, text, front, back, rfl, rfl, htext, h⟩ := h
    cases hsort
    cases h with
    | started pieces rest =>
      rw [← List.append_assoc, ← List.cons_append, String.append_assoc]
      exact .started (.string htext pieces) rest
  | reserved => exact h.elim
  | start =>
    obtain ⟨entry, others, hfound, h, rfl⟩ := h
    cases h with
    | started pieces rest =>
      exact pending_of_list current (.item (.registered hsort.1 hsort.2 hfound) pieces rest)
  | value =>
    obtain ⟨name, value, entry, rfl, hfound, h⟩ := h
    cases h with
    | started pieces rest =>
      rw [← List.cons_append, String.append_assoc]
      exact .started (.registered hsort.1 hsort.2 hfound pieces) rest

theorem pending_cons_iff {current : Option Attribute} {page token last : UInt8} {bytes : Bytes}
    {list : List Attribute} :
    Pending context current page (token :: bytes) list last ↔
      Pending.After context current page token bytes list last (AttributeToken.ofByte token) :=
  ⟨after_of_pending, pending_of_after (AttributeToken.sorts_ofByte token)⟩

/-- What is read of an attribute list at a state. -/
def AttributesForm (context : Context) (current : Option Attribute) (pages : Pages) (bytes : Bytes)
    (list : List Attribute) (last : Pages) : Prop :=
  last.tags = pages.tags ∧ Pending context current pages.attributes bytes list last.attributes

theorem reads_unknownAttribute {α : Type} (token : UInt8) (role : TokenRole) :
    Reads (unknownAttribute token role : Decode α) state (fun _ _ _ => False) :=
  Reads.getThen (reads_throw _)

/-- More of the value is read, and then the rest of the list. -/
theorem reads_addValue {current : Option Attribute} {text : String} {pages : Pages}
    {next : Option Attribute → Decode (List Attribute)}
    (h : ∀ current, Reads (next current) state (AttributesForm context current pages)) :
    Reads (lift (addValue current text) >>= next) state (fun bytes list last =>
      ∃ name value, current = some ⟨name, value⟩ ∧
        AttributesForm context (some ⟨name, value ++ text⟩) pages bytes list last) := by
  cases current with
  | none =>
    refine (reads_throw _).congr fun bytes list last => ⟨False.elim, ?_⟩
    rintro ⟨name, value, h, -⟩
    cases h
  | some started =>
    refine (h (some { started with value := started.value ++ text })).congr fun bytes list last => ?_
    constructor
    · intro h
      exact ⟨_, _, rfl, h⟩
    · rintro ⟨name, value, ⟨⟩, h⟩
      exact h

theorem reads_attributes (bound : Nat) (current : Option Attribute)
    (hbound : state.cursor.rest.length ≤ bound) :
    Reads (attributes context bound current) state (AttributesForm context current state.pages) := by
  -- By the number of bytes ahead, as every token takes one. `Pending` carries the attribute that is
  -- open from one token to the next.
  induction bound generalizing current state with
  | zero => exact reads_byte_of_atEnd (fun _ _ h => not_pending_nil h.2) hbound
  | succ bound ih =>
    refine Reads.byteThen (fun _ _ h => not_pending_nil h.2) fun token state' hm hpages => ?_
    have hbound' := hm.length_le_of_byte hbound
    unfold AttributesForm
    simp only [pending_cons_iff, ← hpages]
    cases htoken : AttributeToken.ofByte token with
    | finish =>
      refine (reads_pure current.toList).congr fun bytes list last => ?_
      constructor
      · rintro ⟨rfl, rfl, rfl⟩
        exact ⟨rfl, rfl, rfl, rfl⟩
      · rintro ⟨htags, rfl, rfl, hattributes⟩
        exact ⟨rfl, rfl, Pages.ext htags hattributes⟩
    | switchPage =>
      refine (reads_switchAttributePage.bind (fun _ => AttributesForm context current)
        fun _ _ state'' _ hm' => ih current (hm'.length_le_of_le hbound')).congr
          fun bytes list last => ?_
      constructor
      · rintro ⟨-, _, front, back, rfl, ⟨page, rfl, rfl⟩, htags, h⟩
        exact ⟨htags, page, back, rfl, h⟩
      · rintro ⟨htags, page, back, rfl, h⟩
        exact ⟨(), _, [page], back, rfl, ⟨page, rfl, rfl⟩, htags, h⟩
    | literal =>
      refine ((reads_literalName context).bind (fun name middle bytes list last =>
        ∃ others, AttributesForm context (some ⟨name, ""⟩) middle bytes others last ∧
          list = current.toList ++ others) fun name _ state'' _ hm' =>
            (ih _ (hm'.length_le_of_le hbound')).map _).congr fun bytes list last => ?_
      constructor
      · rintro ⟨name, _, front, back, rfl, ⟨hname, rfl⟩, others, ⟨htags, h⟩, rfl⟩
        exact ⟨htags, name, front, back, others, rfl, hname, h, rfl⟩
      · rintro ⟨htags, name, front, back, others, rfl, hname, h, rfl⟩
        exact ⟨name, _, front, back, rfl, ⟨hname, rfl⟩, others, ⟨htags, h⟩, rfl⟩
    | string kind =>
      refine ((reads_string context kind).bind (fun text middle bytes list last =>
        ∃ name value, current = some ⟨name, value⟩ ∧
          AttributesForm context (some ⟨name, value ++ text⟩) middle bytes list last)
            fun text _ state'' _ hm' => reads_addValue fun current =>
              ih current (hm'.length_le_of_le hbound')).congr fun bytes list last => ?_
      constructor
      · rintro ⟨text, _, front, back, rfl, ⟨htext, rfl⟩, name, value, rfl, htags, h⟩
        exact ⟨htags, name, value, text, front, back, rfl, rfl, htext, h⟩
      · rintro ⟨htags, name, value, text, front, back, rfl, rfl, htext, h⟩
        exact ⟨text, _, front, back, rfl, ⟨htext, rfl⟩, name, value, rfl, htags, h⟩
    | reserved =>
      refine (reads_unknownAttribute token .attribute).congr fun bytes list last => ?_
      exact ⟨False.elim, fun h => h.2⟩
    | start =>
      refine Reads.getThen ((reads_found
        (context.language.attributeStartAt? state'.attributePage token)
        (fun entry bytes list last => ∃ others,
          AttributesForm context (some ⟨entry.name, entry.valueStart⟩) state'.pages bytes others last ∧
            list = current.toList ++ others) (fun entry hentry => ?_) fun hnone => ?_).congr
              fun bytes list last => ?_)
      · rw [hentry]
        exact (ih _ hbound').map _
      · rw [hnone]
        exact reads_unknownAttribute token .attributeStart
      · constructor
        · rintro ⟨entry, hentry, others, ⟨htags, h⟩, rfl⟩
          exact ⟨htags, entry, others, hentry, h, rfl⟩
        · rintro ⟨htags, entry, others, hentry, h, rfl⟩
          exact ⟨entry, hentry, others, ⟨htags, h⟩, rfl⟩
    | value =>
      refine Reads.getThen ((reads_found
        (context.language.attributeValueAt? state'.attributePage token)
        (fun entry bytes list last => ∃ name value, current = some ⟨name, value⟩ ∧
          AttributesForm context (some ⟨name, value ++ entry.value⟩) state'.pages bytes list last)
            (fun entry hentry => ?_) fun hnone => ?_).congr fun bytes list last => ?_)
      · rw [hentry]
        exact reads_addValue fun current => ih current hbound'
      · rw [hnone]
        exact reads_unknownAttribute token .attributeValue
      · constructor
        · rintro ⟨entry, hentry, name, value, rfl, htags, h⟩
          exact ⟨htags, name, value, entry, rfl, hentry, h⟩
        · rintro ⟨htags, name, value, entry, rfl, hentry, h⟩
          exact ⟨entry, hentry, name, value, rfl, htags, h⟩

end Attributes

end BinaryXml.Decoding
