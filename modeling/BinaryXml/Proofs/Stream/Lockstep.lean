import BinaryXml.Proofs.Stream.Truncation

/-! # One stream read in two languages

Tokens alone say where elements begin and end, so readers for different languages, with different
policies, stand at the same depth at each byte.

* `Follows same first second`: where the first step succeeds the second one ends at the same place,
  or it fails and not for the depth. `Follows.bind` puts two steps together.
* `follows_attributes` and `follows_content`: so it is for lists of attributes and for content, one
  case per kind of token.
* `decodeDocument_ne_tooDeep`: a stream that is read at some depth is too deep for no other reader
  at this depth.
-/

namespace BinaryXml.Decoding

set_option autoImplicit false

/-- Where the first step succeeds, the second one, from the same place, leads to the same place with
a value that is like the other one, or it fails and not for the depth. -/
def Follows {α : Type} (same : α → α → Prop) (first second : Decode α) : Prop :=
  ∀ ⦃state state' value last⦄, state.cursor = state'.cursor → first state = .ok value last →
    (∃ value' last', second state' = .ok value' last' ∧ last.cursor = last'.cursor ∧
      same value value') ∨
    ∃ error last', second state' = .error error last' ∧ ∀ limit, error ≠ .tooDeep limit

section Follows
variable {α β : Type} {same : α → α → Prop} {same' : β → β → Prop}

/-- Nothing is known of two values. -/
abbrev Any (_ _ : α) : Prop := True

theorem follows_pure {a a' : α} (h : same a a') : Follows same (pure a) (pure a') := by
  rintro state state' value last hcursor ⟨⟩
  exact .inl ⟨a', state', rfl, hcursor, h⟩

theorem follows_throw (first : Decode α) {error : Error} (h : ∀ limit, error ≠ .tooDeep limit) :
    Follows same first (throw error) :=
  fun _ state' _ _ _ _ => .inr ⟨error, state', rfl, h⟩

/-- Where the first step fails anything may be done. -/
theorem follows_of_fails {first second : Decode α} (h : ∀ state, ∃ error, first state = .error error state) :
    Follows same first second := by
  intro state state' value last hcursor hrun
  obtain ⟨error, herror⟩ := h state
  cases herror.symm.trans hrun

theorem Follows.bind {first second : Decode α} {next next' : α → Decode β}
    (h : Follows same first second)
    (h' : ∀ value value', same value value' → Follows same' (next value) (next' value')) :
    Follows same' (first >>= next) (second >>= next') := by
  intro state state' value last hcursor hrun
  obtain ⟨a, middle, hfirst, hnext⟩ := bind_eq_ok_iff.mp hrun
  change (∃ value' last', EStateM.bind second next' state' = .ok value' last' ∧ _) ∨
    ∃ error last', EStateM.bind second next' state' = .error error last' ∧ _
  unfold EStateM.bind
  rcases h hcursor hfirst with ⟨a', middle', hsecond, hmiddle, hsame⟩ | ⟨error, last', hsecond, hne⟩
  · simp only [hsecond]
    exact h' a a' hsame hmiddle hnext
  · simp only [hsecond]
    exact .inr ⟨error, last', rfl, hne⟩

theorem Follows.map {first second : Decode α} (h : Follows same first second) {f f' : α → β}
    (hf : ∀ a a', same a a' → same' (f a) (f' a')) :
    Follows same' (first >>= fun a => pure (f a)) (second >>= fun a => pure (f' a)) :=
  h.bind fun a a' hsame => follows_pure (hf a a' hsame)

theorem Follows.getThen {next next' : State → Decode α}
    (h : ∀ state state', state.cursor = state'.cursor → Follows same (next state) (next' state')) :
    Follows same (get >>= next) (get >>= next') :=
  fun state state' _ _ hcursor hrun => h state state' hcursor hcursor hrun

theorem follows_read (reader : Reader α) : Follows Eq (read reader) (read reader) := by
  intro state state' value last hcursor hrun
  unfold read at hrun ⊢
  rw [← hcursor]
  split at hrun
  · rename_i hreader
    cases hrun
    exact .inl ⟨_, _, rfl, rfl, rfl⟩
  · cases hrun

theorem follows_lift {result result' : Except Error α}
    (h : ∀ value value', result = .ok value → result' = .ok value' → same value value')
    (hne : ∀ limit, result' ≠ .error (.tooDeep limit)) : Follows same (lift result) (lift result') := by
  intro state state' value last hcursor hrun
  cases result with
  | error error => cases hrun
  | ok a =>
    cases hrun
    cases result' with
    | ok a' => exact .inl ⟨a', state', rfl, hcursor, h value a' rfl rfl⟩
    | error error => exact .inr ⟨error, state', rfl, fun limit hdeep => hne limit (hdeep ▸ rfl)⟩

theorem follows_remaining : Follows Eq remaining remaining := by
  rintro state state' value last hcursor ⟨⟩
  exact .inl ⟨_, state', rfl, hcursor, by rw [hcursor]⟩

theorem follows_switchTagPage : Follows Any switchTagPage switchTagPage := by
  refine (follows_read Reader.byte).bind fun page page' _ => ?_
  rintro state state' value last hcursor ⟨⟩
  exact .inl ⟨(), _, rfl, hcursor, trivial⟩

theorem follows_switchAttributePage : Follows Any switchAttributePage switchAttributePage := by
  refine (follows_read Reader.byte).bind fun page page' _ => ?_
  rintro state state' value last hcursor ⟨⟩
  exact .inl ⟨(), _, rfl, hcursor, trivial⟩

theorem follows_unknownTag (first : Decode α) (token : UInt8) (role : TokenRole) :
    Follows same first (unknownTag token role) := by
  intro state state' value last hcursor hrun
  exact .inr ⟨_, state', rfl, fun limit h => by cases h⟩

theorem follows_unknownAttribute (first : Decode α) (token : UInt8) (role : TokenRole) :
    Follows same first (unknownAttribute token role) := by
  intro state state' value last hcursor hrun
  exact .inr ⟨_, state', rfl, fun limit h => by cases h⟩

end Follows

/-! ## Strings -/

section Strings
variable {context context' : Context}

theorem decode_ne_tooDeep (charset : Charset) (bytes : Bytes) (limit : Nat) :
    charset.decode bytes ≠ .error (.tooDeep limit) := by
  cases charset with
  | latin1 => simp [Charset.decode]
  | usAscii =>
    unfold Charset.decode
    dsimp only
    split <;> simp
  | utf8 =>
    unfold Charset.decode
    dsimp only
    split <;> simp

theorem get_ne_tooDeep (table : StringTable) (offset : UInt32) (limit : Nat) :
    table.get offset ≠ .error (.tooDeep limit) := by
  unfold StringTable.get
  dsimp only
  split <;> simp

theorem tableString_ne_tooDeep (context : Context) (offset : UInt32) (limit : Nat) :
    tableString context offset ≠ .error (.tooDeep limit) := by
  unfold tableString
  cases hget : context.table.get offset with
  | ok raw => exact decode_ne_tooDeep _ raw limit
  | error error =>
    intro h
    cases h
    exact get_ne_tooDeep _ _ _ hget

theorem follows_string (kind : StringToken) :
    Follows Any (string context kind) (string context' kind) := by
  cases kind with
  | inline =>
    exact (follows_read Reader.string).bind fun _ raw _ =>
      follows_lift (fun _ _ _ _ => trivial) (decode_ne_tooDeep _ raw)
  | table =>
    exact (follows_read Reader.number).bind fun _ offset _ =>
      follows_lift (fun _ _ _ _ => trivial) (tableString_ne_tooDeep _ offset)
  | entity =>
    refine (follows_read Reader.number).bind fun code code' hcode => ?_
    subst hcode
    cases Scalar.char? code.toNat with
    | some c => exact follows_pure trivial
    | none => exact follows_throw _ fun limit h => by cases h
  | data => exact (follows_read Reader.counted).map fun _ _ _ => trivial

theorem follows_literalName (htable : context.table = context'.table) :
    Follows Any (literalName context) (literalName context') := by
  unfold literalName
  rw [htable]
  split
  · exact follows_string .inline
  · exact follows_string .table

end Strings

/-! ## Attributes -/

section Attributes
variable {context context' : Context}

theorem follows_addValue {current current' : Option Attribute} (value value' : String)
    (h : current.isSome = current'.isSome) :
    Follows (fun started started' => started.isSome = started'.isSome)
      (lift (addValue current value)) (lift (addValue current' value')) := by
  refine follows_lift (fun started started' hfirst hsecond => ?_) fun limit => ?_
  · cases current with
    | none => cases hfirst
    | some begun =>
      cases current' with
      | none => cases h
      | some begun' =>
        cases hfirst
        cases hsecond
        rfl
  · cases current' <;> simp [addValue]

/-- Lists are as long in both languages, but an entry that only one of them has ends the other
reader. -/
theorem follows_attributes (htable : context.table = context'.table) (bound : Nat)
    {current current' : Option Attribute} (h : current.isSome = current'.isSome) :
    Follows Any (attributes context bound current) (attributes context' bound current') := by
  -- The attributes that are open may differ in all but whether there is one.
  induction bound generalizing current current' with
  | zero => exact (follows_read Reader.byte).map fun _ _ _ => trivial
  | succ bound ih =>
    unfold attributes
    refine (follows_read Reader.byte).bind fun token token' htoken => ?_
    subst htoken
    cases AttributeToken.ofByte token with
    | finish => exact follows_pure trivial
    | switchPage => exact follows_switchAttributePage.bind fun _ _ _ => ih h
    | literal =>
      refine (follows_literalName htable).bind fun name name' _ => ?_
      have hothers := @ih (some ⟨name, ""⟩) (some ⟨name', ""⟩) rfl
      exact hothers.map fun _ _ _ => trivial
    | string kind =>
      refine (follows_string kind).bind fun value value' _ => ?_
      exact (follows_addValue value value' h).bind fun _ _ hstarted => ih hstarted
    | reserved => exact follows_unknownAttribute _ token .attribute
    | start =>
      refine Follows.getThen fun state state' _ => ?_
      cases context'.language.attributeStartAt? state'.attributePage token with
      | none => exact follows_unknownAttribute _ token .attributeStart
      | some entry' =>
        cases context.language.attributeStartAt? state.attributePage token with
        | none => exact follows_of_fails fun _ => ⟨_, rfl⟩
        | some entry =>
          have hothers := @ih (some ⟨entry.name, entry.valueStart⟩)
            (some ⟨entry'.name, entry'.valueStart⟩) rfl
          exact hothers.map fun _ _ _ => trivial
    | value =>
      refine Follows.getThen fun state state' _ => ?_
      cases context'.language.attributeValueAt? state'.attributePage token with
      | none => exact follows_unknownAttribute _ token .attributeValue
      | some entry' =>
        cases context.language.attributeValueAt? state.attributePage token with
        | none => exact follows_of_fails fun _ => ⟨_, rfl⟩
        | some entry =>
          exact (follows_addValue entry.value entry'.value h).bind fun _ _ hstarted => ih hstarted

end Attributes

/-! ## Elements -/

section Elements
variable {context context' : Context}

theorem follows_tag (htable : context.table = context'.table) (token : UInt8) :
    Follows Any (tag context token) (tag context' token) := by
  unfold tag
  split
  · exact (follows_literalName htable).map fun _ _ _ => trivial
  · split
    · refine Follows.getThen fun state state' _ => ?_
      dsimp only
      cases context'.language.tagName? state'.tagPage (Code.base token) with
      | none => exact follows_unknownTag _ token .tag
      | some name' =>
        cases context.language.tagName? state.tagPage (Code.base token) with
        | none => exact follows_of_fails fun _ => ⟨_, rfl⟩
        | some name => exact follows_pure trivial
    · exact follows_unknownTag _ token .tag

/-- The second reader allows as many levels as the first one. -/
theorem follows_element {inner inner' : Decode (List Node)} {depth : Nat} (token : UInt8)
    (htable : context.table = context'.table) (hdepth : context.maxDepth ≤ context'.maxDepth)
    (hinner : Follows Any inner inner') :
    Follows Any (element context inner depth token) (element context' inner' depth token) := by
  rw [element_eq, element_eq]
  by_cases hdeep : context.maxDepth < depth
  · rw [if_pos hdeep]
    exact follows_of_fails fun _ => ⟨_, rfl⟩
  · have hdeep' : ¬ context'.maxDepth < depth := by omega
    rw [if_neg hdeep, if_neg hdeep']
    refine (follows_tag htable token).bind fun start start' _ => ?_
    have hlist : Follows Any
        (if token &&& Code.hasAttributes ≠ 0 then do attributes context (← remaining) none
          else pure [])
        (if token &&& Code.hasAttributes ≠ 0 then do attributes context' (← remaining) none
          else pure []) := by
      split
      · refine follows_remaining.bind fun bound bound' hbound => ?_
        subst hbound
        exact follows_attributes htable bound rfl
      · exact follows_pure trivial
    refine hlist.bind fun list list' _ => ?_
    have hpieces : Follows Any (if token &&& Code.hasContent ≠ 0 then inner else pure [])
        (if token &&& Code.hasContent ≠ 0 then inner' else pure []) := by
      split
      · exact hinner
      · exact follows_pure trivial
    exact hpieces.map fun _ _ _ => trivial

theorem follows_content (htable : context.table = context'.table)
    (hdepth : context.maxDepth ≤ context'.maxDepth) (bound depth : Nat) :
    Follows Any (content context bound depth) (content context' bound depth) := by
  induction bound generalizing depth with
  | zero => exact (follows_read Reader.byte).map fun _ _ _ => trivial
  | succ bound ih =>
    unfold content
    refine (follows_read Reader.byte).bind fun token token' htoken => ?_
    subst htoken
    cases ContentToken.ofByte token with
    | finish => exact follows_pure trivial
    | switchPage => exact follows_switchTagPage.bind fun _ _ _ => ih depth
    | string kind =>
      exact (follows_string kind).bind fun _ _ _ => (ih depth).map fun _ _ _ => trivial
    | reserved => exact follows_unknownTag _ token .content
    | tag =>
      exact (follows_element token htable hdepth (ih (depth + 1))).bind fun _ _ _ =>
        (ih depth).map fun _ _ _ => trivial

end Elements

/-! ## Streams -/

section Streams
variable {context context' : Context}

theorem follows_leadingPages (bound : Nat) : Follows Any (leadingPages bound) (leadingPages bound) := by
  induction bound with
  | zero => exact follows_pure trivial
  | succ bound ih =>
    unfold leadingPages
    refine Follows.getThen fun state state' hcursor => ?_
    rw [← hcursor]
    split
    · exact (follows_read Reader.byte).bind fun _ _ _ => follows_switchTagPage.bind fun _ _ _ => ih
    · exact follows_pure trivial

theorem follows_leading (htable : context.table = context'.table)
    (hdepth : context.maxDepth ≤ context'.maxDepth) (bound : Nat) :
    Follows Any (leading context bound) (leading context' bound) := by
  refine (follows_leadingPages bound).bind fun _ _ _ => ?_
  refine (follows_read Reader.byte).bind fun token token' htoken => ?_
  refine follows_remaining.bind fun rest rest' hrest => ?_
  subst htoken hrest
  exact follows_element token htable hdepth (follows_content htable hdepth _ 1)

/-- How deep a stream is nested does not depend on the language in which it is read. -/
theorem decodeDocument_ne_tooDeep {options reading : DecodeOptions} {stream : Bytes}
    {document : Document} (h : decodeDocument options stream = .ok document)
    (hdepth : options.maxDepth ≤ reading.maxDepth) (limit : Nat) :
    decodeDocument reading stream ≠ .error (.tooDeep limit) := by
  obtain ⟨header, cursor, events, last, hheader, hevents, hleading, hend⟩ := run_eq_ok h
  obtain ⟨events', hevents'⟩ := (Grammar.warnings_isOk_iff header reading.language).mpr
    ((Grammar.warnings_isOk_iff header options.language).mp ⟨events, hevents⟩)
  have htable : (Context.of options header).table = (Context.of reading header).table := rfl
  have hfollows := follows_leading htable hdepth cursor.rest.length
  have hstart : ({ cursor, events } : State).cursor = ({ cursor, events := events' } : State).cursor :=
    rfl
  rcases hfollows hstart hleading with ⟨root, last', hread, hlast, -⟩ | ⟨error, last', herror, hne⟩
  · have hbody : body (Context.of reading header) { cursor, events := events' } = .ok ⟨root⟩ last' :=
      body_eq_ok_iff_leading.mpr ⟨hread, hlast ▸ hend⟩
    rw [decodeDocument_of_body hheader hevents' hbody]
    simp
  · rw [decodeDocument_of_body_error hheader hevents' (body_of_leading_error herror)]
    exact fun hdeep => hne limit (Except.error.inj hdeep)

end Streams

end BinaryXml.Decoding
