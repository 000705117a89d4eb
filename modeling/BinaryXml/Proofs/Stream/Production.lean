import BinaryXml.Proofs.Document.Levels
import BinaryXml.Proofs.Language.Lookup
import BinaryXml.Proofs.Stream.Recognition
import BinaryXml.Proofs.Stream.Tables
import BinaryXml.Stream.Decoding
import BinaryXml.Stream.Encoding

/-! # The encoder writes what the grammar derives

* `Extends`: what every step of the encoder does to the string table.
* `Fits`: a reader that belongs to what is written, with the final string table.
* `text_spec`, `attributeValue_spec`, `eachAttribute_spec`: the tokens that a step chooses are what
  the grammar has for its argument.
-/

namespace BinaryXml.Encoding

open Grammar

set_option autoImplicit false

/-! ## Steps of the encoder -/

/-- The table grows at its end, by strings that can be read back, and only if it is used. -/
def Extends (source : Context) (state state' : State) : Prop :=
  ∃ more, state'.table.entries = state.table.entries ++ more ∧ TableBuilder.Clean more ∧
    (source.literalsInTable = false → source.sharedTexts = [] → more = [])

/-- A reader that belongs to what is written, when the strings of the final table are `entries`. -/
structure Fits (source : Context) (target : Decoding.Context) (entries : List String) : Prop where
  language : target.language = source.language
  charset : target.charset = .utf8
  opaqueEncoding : target.opaqueEncoding = source.opaqueEncoding
  table : target.table.data = TableBuilder.bytes ⟨entries⟩
  clean : TableBuilder.Clean entries
  size : (TableBuilder.bytes ⟨entries⟩).length < TableBuilder.limit
  spelled : source.literalsInTable = false → entries = []

/-- The bytes of tokens. -/
abbrev spell (tokens : List Token) : Bytes :=
  tokens.flatMap Token.bytes

section Steps
variable {source : Context} {target : Decoding.Context} {entries : List String}
  {state state' state'' : State}

theorem clean_nil : TableBuilder.Clean [] := by
  intro entry hmem
  cases hmem

theorem clean_append {front back : List String} (h : TableBuilder.Clean front)
    (h' : TableBuilder.Clean back) : TableBuilder.Clean (front ++ back) := by
  intro entry hmem
  rcases List.mem_append.mp hmem with hmem | hmem
  · exact h entry hmem
  · exact h' entry hmem

theorem Extends.ofTable (h : state'.table = state.table) : Extends source state state' :=
  ⟨[], by rw [h, List.append_nil], clean_nil, fun _ _ => rfl⟩

theorem Extends.refl (source : Context) (state : State) : Extends source state state :=
  .ofTable rfl

theorem Extends.trans (h : Extends source state state') (h' : Extends source state' state'') :
    Extends source state state'' := by
  obtain ⟨more, hmore, hclean, hquiet⟩ := h
  obtain ⟨more', hmore', hclean', hquiet'⟩ := h'
  refine ⟨more ++ more', by rw [hmore', hmore, List.append_assoc], clean_append hclean hclean', ?_⟩
  intro hliterals hshared
  rw [hquiet hliterals hshared, hquiet' hliterals hshared]
  rfl

theorem Extends.prefix_of (h : Extends source state state')
    (hbegins : state'.table.entries <+: entries) : state.table.entries <+: entries := by
  obtain ⟨more, hmore, -⟩ := h
  exact (hmore ▸ List.prefix_append _ _).trans hbegins

theorem Extends.clean (h : Extends source state state')
    (clean : TableBuilder.Clean state.table.entries) : TableBuilder.Clean state'.table.entries := by
  obtain ⟨more, hmore, hclean, -⟩ := h
  rw [hmore]
  exact clean_append clean hclean

theorem pure_eq_ok_iff {α : Type} {a value : α} :
    (pure a : Encode α) state = .ok value state' ↔ value = a ∧ state' = state := by
  constructor
  · rintro ⟨⟩
    exact ⟨rfl, rfl⟩
  · rintro ⟨rfl, rfl⟩
    rfl

theorem lift_eq_ok_iff {α : Type} {result : Except Error α} {value : α} :
    lift result state = .ok value state' ↔ result = .ok value ∧ state' = state := by
  cases result with
  | ok a =>
    constructor
    · rintro ⟨⟩
      exact ⟨rfl, rfl⟩
    · rintro ⟨⟨⟩, rfl⟩
      rfl
  | error error =>
    constructor
    · rintro ⟨⟩
    · rintro ⟨⟨⟩, -⟩

theorem intern_eq_ok {entry : String} {offset : UInt32}
    (h : intern entry state = .ok offset state') :
    TableBuilder.Refers state'.table.entries offset entry ∧
      (∃ more, state'.table.entries = state.table.entries ++ more ∧ TableBuilder.Clean more) ∧
        state'.tagPage = state.tagPage ∧ state'.attributePage = state.attributePage := by
  unfold intern at h
  split at h
  · rename_i found table htable
    cases h
    obtain ⟨hrefers, hmore⟩ := TableBuilder.intern_eq_ok htable
    exact ⟨hrefers, hmore, rfl, rfl⟩
  · cases h

end Steps

/-! ## Texts and names -/

section Texts
variable {source : Context} {target : Decoding.Context} {entries : List String}
  {state state' : State}

/-- An offset that a step gives out denotes its string in the final table. -/
theorem operand_of_refers (fits : Fits source target entries)
    (hbegins : state.table.entries <+: entries) {offset : UInt32} {entry : String}
    (h : TableBuilder.Refers state.table.entries offset entry) :
    Operand target .table (Number.encode offset) entry := by
  obtain ⟨more, rfl⟩ := hbegins
  have hheld := TableBuilder.holds_of_refers (h.append more) fits.clean fits.size
  rw [← fits.table] at hheld
  refine .table (Number.spells_encode offset) hheld ?_
  rw [fits.charset, Charset.decode, Utf8.decode_encode]

theorem operand_of_clean (fits : Fits source target entries) {text : String}
    (h : '\x00' ∉ text.toList) : Operand target .inline (Frame.terminated text) text := by
  refine .inline (terminated_encode h) ?_
  rw [fits.charset, Charset.decode, Utf8.decode_encode]

theorem text_spec {content : String} {token : Token}
    (h : text source content state = .ok token state') :
    Extends source state state' ∧ state'.tagPage = state.tagPage ∧
      state'.attributePage = state.attributePage ∧
        (Fits source target entries → state'.table.entries <+: entries →
          ∃ kind operand, token.bytes = StringToken.code kind :: operand ∧
            Operand target kind operand content) := by
  unfold text at h
  split at h
  · rename_i hshared
    obtain ⟨offset, state'', hintern, hpure⟩ := bind_eq_ok_iff.mp h
    obtain ⟨rfl, rfl⟩ := pure_eq_ok_iff.mp hpure
    obtain ⟨hrefers, ⟨more, hmore, hclean⟩, htag, hattribute⟩ := intern_eq_ok hintern
    refine ⟨⟨more, hmore, hclean, ?_⟩, htag, hattribute, fun fits hbegins => ?_⟩
    · rintro - hnone
      rw [hnone] at hshared
      cases hshared
    · exact ⟨.table, _, rfl, operand_of_refers fits hbegins hrefers⟩
  · obtain ⟨bytes, state'', hlift, hpure⟩ := bind_eq_ok_iff.mp h
    obtain ⟨rfl, rfl⟩ := pure_eq_ok_iff.mp hpure
    obtain ⟨hframe, rfl⟩ := lift_eq_ok_iff.mp hlift
    obtain ⟨hclean, -⟩ := Frame.terminated?_eq_ok_iff.mp hframe
    exact ⟨Extends.refl _ _, rfl, rfl, fun fits _ => ⟨.inline, _, rfl, operand_of_clean fits hclean⟩⟩

theorem bytes_ne_nil_of_refers {offset : UInt32} {entry : String}
    (h : TableBuilder.Refers entries offset entry) : TableBuilder.bytes ⟨entries⟩ ≠ [] := by
  obtain ⟨before, after, rfl, -⟩ := h
  rw [TableBuilder.bytes_append, TableBuilder.bytes_cons, Frame.terminated]
  simp

theorem literalName_spec {name : String} {literal : BinaryXml.LiteralName}
    (h : literalName source name state = .ok literal state') :
    Extends source state state' ∧ state'.tagPage = state.tagPage ∧
      state'.attributePage = state.attributePage ∧
        (Fits source target entries → state'.table.entries <+: entries →
          Grammar.LiteralName target literal.bytes name) := by
  unfold literalName at h
  split at h
  · rename_i hliterals
    obtain ⟨offset, state'', hintern, hpure⟩ := bind_eq_ok_iff.mp h
    obtain ⟨rfl, rfl⟩ := pure_eq_ok_iff.mp hpure
    obtain ⟨hrefers, ⟨more, hmore, hclean⟩, htag, hattribute⟩ := intern_eq_ok hintern
    refine ⟨⟨more, hmore, hclean, ?_⟩, htag, hattribute, fun fits hbegins => ?_⟩
    · intro hspelled
      rw [hliterals] at hspelled
      cases hspelled
    · have hne : target.table.data ≠ [] := by
        obtain ⟨more', rfl⟩ := hbegins
        rw [fits.table]
        exact bytes_ne_nil_of_refers (hrefers.append more')
      rw [Grammar.LiteralName, if_neg hne]
      exact operand_of_refers fits hbegins hrefers
  · rename_i hliterals
    obtain ⟨bytes, state'', hlift, hpure⟩ := bind_eq_ok_iff.mp h
    obtain ⟨rfl, rfl⟩ := pure_eq_ok_iff.mp hpure
    obtain ⟨hframe, rfl⟩ := lift_eq_ok_iff.mp hlift
    obtain ⟨hclean, -⟩ := Frame.terminated?_eq_ok_iff.mp hframe
    refine ⟨Extends.refl _ _, rfl, rfl, fun fits _ => ?_⟩
    have hnil : target.table.data = [] := by
      rw [fits.table, fits.spelled (by simpa using hliterals)]
      rfl
    rw [Grammar.LiteralName, if_pos hnil]
    exact operand_of_clean fits hclean

end Texts

/-! ## Attributes -/

section Attributes
variable {source : Context} {target : Decoding.Context} {entries : List String}
  {state state' : State}

/-- Tokens that make a code page the current one, if it is not yet. -/
def Switches (old new : UInt8) (tokens : List Token) : Prop :=
  new = old ∧ tokens = [] ∨ tokens = [.switchPage new]

theorem switchAttributePage_eq (page : UInt8) (state : State) :
    switchAttributePage page state =
      if page = state.attributePage then .ok [] state
      else .ok [.switchPage page] { state with
        events := state.events ++ [.attributePageWritten state.attributePage page]
        attributePage := page } := by
  change (if page = state.attributePage then _ else _ : Encode (List Token)) state = _
  split <;> rfl

theorem switchAttributePage_spec {page : UInt8} {tokens : List Token}
    (h : switchAttributePage page state = .ok tokens state') :
    Extends source state state' ∧ state'.tagPage = state.tagPage ∧ state'.attributePage = page ∧
      Switches state.attributePage page tokens := by
  rw [switchAttributePage_eq] at h
  split at h
  · rename_i hpage
    cases h
    exact ⟨.ofTable rfl, rfl, hpage.symm, .inl ⟨hpage, rfl⟩⟩
  · cases h
    exact ⟨.ofTable rfl, rfl, rfl, .inr rfl⟩

theorem Switches.pieces {old new last : UInt8} {tokens : List Token} {bytes : Bytes}
    {value : String} (h : Switches old new tokens)
    (rest : ValuePieces target new bytes value last) :
    ValuePieces target old (spell tokens ++ bytes) value last := by
  rcases h with ⟨rfl, rfl⟩ | rfl
  · exact rest
  · exact .switchPage rest

theorem Switches.list {old new last : UInt8} {tokens : List Token} {bytes : Bytes}
    {list : List Attribute} (h : Switches old new tokens)
    (rest : AttributeList target new bytes list last) :
    AttributeList target old (spell tokens ++ bytes) list last := by
  rcases h with ⟨rfl, rfl⟩ | rfl
  · exact rest
  · exact .switchPage rest

theorem value_base : ∀ token : UInt8, 0x85 ≤ token ∧ token ≤ 0xBF ∨ 0xC5 ≤ token ∧ token ≤ 0xFF →
    Code.firstOfPage ≤ Code.base token ∧ 0x80 ≤ token := by
  apply byte_forall
  decide +kernel

theorem start_base : ∀ token : UInt8, 0x05 ≤ token ∧ token ≤ 0x3F ∨ 0x45 ≤ token ∧ token ≤ 0x7F →
    Code.firstOfPage ≤ Code.base token ∧ token < 0x80 := by
  apply byte_forall
  decide +kernel

theorem attributeValue_eq (value : String) :
    attributeValue source value =
      if value.isEmpty then pure []
      else get >>= fun current =>
        match source.language.attributeValue? value current.attributePage with
        | some entry => switchAttributePage entry.page >>= fun switch =>
          pure (switch ++ [.code entry.token])
        | none => text source value >>= fun token => pure [token] := rfl

/-- A value is written with nothing, with the token of an entry, or as a text. -/
theorem attributeValue_eq_ok {value : String} {tokens : List Token}
    (h : attributeValue source value state = .ok tokens state') :
    (value.isEmpty = true ∧ tokens = [] ∧ state' = state) ∨
    (value.isEmpty = false ∧ ∃ entry switch,
      source.language.attributeValue? value state.attributePage = some entry ∧
        switchAttributePage entry.page state = .ok switch state' ∧
          tokens = switch ++ [.code entry.token]) ∨
    (value.isEmpty = false ∧ source.language.attributeValue? value state.attributePage = none ∧
      ∃ token, text source value state = .ok token state' ∧ tokens = [token]) := by
  rw [attributeValue_eq] at h
  split at h
  · rename_i hempty
    obtain ⟨rfl, rfl⟩ := pure_eq_ok_iff.mp h
    exact .inl ⟨hempty, rfl, rfl⟩
  · rename_i hempty
    rw [Bool.not_eq_true] at hempty
    obtain ⟨_, _, hget, h⟩ := bind_eq_ok_iff.mp h
    cases hget
    cases hentry : source.language.attributeValue? value state.attributePage with
    | some entry =>
      simp only [hentry] at h
      obtain ⟨switch, state1, hswitch, hpure⟩ := bind_eq_ok_iff.mp h
      obtain ⟨rfl, rfl⟩ := pure_eq_ok_iff.mp hpure
      exact .inr (.inl ⟨hempty, entry, switch, rfl, hswitch, rfl⟩)
    | none =>
      simp only [hentry] at h
      obtain ⟨token, state1, htext, hpure⟩ := bind_eq_ok_iff.mp h
      obtain ⟨rfl, rfl⟩ := pure_eq_ok_iff.mp hpure
      exact .inr (.inr ⟨hempty, rfl, token, htext, rfl⟩)

theorem attributeValue_spec {value : String} {tokens : List Token}
    (regular : source.language.RegularAttributes)
    (h : attributeValue source value state = .ok tokens state') :
    Extends source state state' ∧ state'.tagPage = state.tagPage ∧
      (Fits source target entries → state'.table.entries <+: entries →
        ValuePieces target state.attributePage (spell tokens) value state'.attributePage) := by
  rcases attributeValue_eq_ok h with ⟨hempty, rfl, rfl⟩ |
    ⟨-, entry, switch, hentry, hswitch, rfl⟩ | ⟨-, -, token, htext, rfl⟩
  · rw [String.isEmpty_iff.mp hempty]
    exact ⟨Extends.refl _ _, rfl, fun _ _ => .nothing⟩
  · obtain ⟨hextends, htag, hpage, hswitches⟩ := switchAttributePage_spec hswitch
    obtain ⟨hmem, rfl⟩ := Language.attributeValue?_eq_some hentry
    obtain ⟨hbase, hhigh⟩ := value_base _ (regular.valueRange _ hmem)
    have hfound := Language.attributeValueAt?_of_attributeValue? regular hentry
    refine ⟨hextends, htag, fun fits _ => ?_⟩
    rw [← fits.language] at hfound
    have hpieces := hswitches.pieces (.registered hbase hhigh hfound .nothing)
    rw [String.append_empty] at hpieces
    rw [spell, List.flatMap_append, hpage]
    exact hpieces
  · obtain ⟨hextends, htag, hattribute, hoperand⟩ := text_spec htext
    refine ⟨hextends, htag, fun fits hbegins => ?_⟩
    obtain ⟨kind, operand, hbytes, hoperand⟩ := hoperand fits hbegins
    have hpieces : ValuePieces target state.attributePage (kind.code :: (operand ++ []))
      (value ++ "") state.attributePage := .string hoperand .nothing
    rw [String.append_empty, List.append_nil] at hpieces
    rw [spell, List.flatMap_cons, List.flatMap_nil, List.append_nil, hbytes, hattribute]
    exact hpieces

theorem report_eq_ok (source : Context) {event : Event} {value : Unit}
    (h : report event state = .ok value state') :
    Extends source state state' ∧ state'.tagPage = state.tagPage ∧
      state'.attributePage = state.attributePage := by
  cases h
  exact ⟨.ofTable rfl, rfl, rfl⟩

theorem spell_append (front back : List Token) : spell (front ++ back) = spell front ++ spell back :=
  List.flatMap_append

theorem spell_cons (token : Token) (rest : List Token) :
    spell (token :: rest) = token.bytes ++ spell rest := List.flatMap_cons

theorem singleAttribute_eq (name value : String) :
    singleAttribute source ⟨name, value⟩ = get >>= fun current =>
      match source.language.attributeStart? name value current.attributePage with
      | some entry => switchAttributePage entry.page >>= fun switch =>
        attributeValue source (entry.remainder value) >>= fun rest =>
          pure (switch ++ .code entry.token :: rest)
      | none => report (.literalAttribute name) >>= fun _ =>
        literalName source name >>= fun literal =>
          attributeValue source value >>= fun rest =>
            pure (.literal Code.literal literal :: rest) := rfl

/-- An attribute is written with the token of an entry and the rest of its value, or by its name
and the whole value. -/
theorem singleAttribute_eq_ok {name value : String} {tokens : List Token}
    (h : singleAttribute source ⟨name, value⟩ state = .ok tokens state') :
    (∃ entry switch rest middle,
      source.language.attributeStart? name value state.attributePage = some entry ∧
        switchAttributePage entry.page state = .ok switch middle ∧
          attributeValue source (entry.remainder value) middle = .ok rest state' ∧
            tokens = switch ++ .code entry.token :: rest) ∨
    (source.language.attributeStart? name value state.attributePage = none ∧
      ∃ said literal named rest, report (.literalAttribute name) state = .ok () said ∧
        literalName source name said = .ok literal named ∧
          attributeValue source value named = .ok rest state' ∧
            tokens = .literal Code.literal literal :: rest) := by
  rw [singleAttribute_eq] at h
  obtain ⟨_, _, hget, h⟩ := bind_eq_ok_iff.mp h
  cases hget
  cases hentry : source.language.attributeStart? name value state.attributePage with
  | some entry =>
    simp only [hentry] at h
    obtain ⟨switch, middle, hswitch, h⟩ := bind_eq_ok_iff.mp h
    obtain ⟨rest, _, hvalue, hpure⟩ := bind_eq_ok_iff.mp h
    obtain ⟨rfl, rfl⟩ := pure_eq_ok_iff.mp hpure
    exact .inl ⟨entry, switch, rest, middle, rfl, hswitch, hvalue, rfl⟩
  | none =>
    simp only [hentry] at h
    obtain ⟨_, said, hreport, h⟩ := bind_eq_ok_iff.mp h
    obtain ⟨literal, named, hliteral, h⟩ := bind_eq_ok_iff.mp h
    obtain ⟨rest, _, hvalue, hpure⟩ := bind_eq_ok_iff.mp h
    obtain ⟨rfl, rfl⟩ := pure_eq_ok_iff.mp hpure
    exact .inr ⟨rfl, said, literal, named, rest, hreport, hliteral, hvalue, rfl⟩

theorem singleAttribute_spec {first : Attribute} {tokens : List Token}
    (regular : source.language.RegularAttributes)
    (h : singleAttribute source first state = .ok tokens state') :
    Extends source state state' ∧ state'.tagPage = state.tagPage ∧
      (Fits source target entries → state'.table.entries <+: entries →
        ∀ {others list last}, AttributeList target state'.attributePage others list last →
          AttributeList target state.attributePage (spell tokens ++ others) (first :: list) last) := by
  obtain ⟨name, value⟩ := first
  rcases singleAttribute_eq_ok h with ⟨entry, switch, rest, middle, hentry, hswitch, hvalue, rfl⟩ |
    ⟨-, said, literal, named, rest, hreport, hliteral, hvalue, rfl⟩
  · obtain ⟨hextends, htag, hpage, hswitches⟩ := switchAttributePage_spec hswitch
    obtain ⟨hextends', htag', hpieces⟩ := attributeValue_spec regular hvalue
    obtain ⟨hmem, hcovers⟩ := Language.attributeStart?_eq_some hentry
    obtain ⟨hname, hwhole⟩ := Language.append_remainder hcovers
    obtain ⟨hbase, hlow⟩ := start_base _ (regular.startRange _ hmem)
    have hfound := Language.attributeStartAt?_of_attributeStart? regular hentry
    refine ⟨hextends.trans hextends', htag'.trans htag, fun fits hbegins others list last hothers => ?_⟩
    have hrest := hpieces fits hbegins
    rw [hpage] at hrest
    rw [← fits.language] at hfound
    have hitem := AttributeList.item (.registered hbase hlow hfound) hrest hothers
    rw [hname, hwhole] at hitem
    rw [spell_append, spell_cons, List.append_assoc]
    exact hswitches.list (by simpa [Token.bytes] using hitem)
  · obtain ⟨hextends, htag, hpage⟩ := report_eq_ok source hreport
    obtain ⟨hextends', htag', hpage', hname⟩ := literalName_spec hliteral
    obtain ⟨hextends'', htag'', hpieces⟩ := attributeValue_spec regular hvalue
    refine ⟨(hextends.trans hextends').trans hextends'', htag''.trans (htag'.trans htag),
      fun fits hbegins others list last hothers => ?_⟩
    have hrest := hpieces fits hbegins
    rw [hpage', hpage] at hrest
    have hitem := AttributeList.item (.literal (hname fits (hextends''.prefix_of hbegins))) hrest hothers
    rw [String.empty_append] at hitem
    rw [spell_cons, Token.bytes]
    simpa using hitem

theorem eachAttribute_spec {list : List Attribute} {tokens : List Token}
    (regular : source.language.RegularAttributes)
    (h : eachAttribute source list state = .ok tokens state') :
    Extends source state state' ∧ state'.tagPage = state.tagPage ∧
      (Fits source target entries → state'.table.entries <+: entries →
        AttributeList target state.attributePage (spell tokens ++ [Code.finish]) list
          state'.attributePage) := by
  induction list generalizing state tokens with
  | nil =>
    obtain ⟨rfl, rfl⟩ := pure_eq_ok_iff.mp h
    exact ⟨Extends.refl _ _, rfl, fun _ _ => .finish⟩
  | cons first rest ih =>
    obtain ⟨front, state1, hfirst, h⟩ := bind_eq_ok_iff.mp h
    obtain ⟨back, state2, hrest, hpure⟩ := bind_eq_ok_iff.mp h
    obtain ⟨rfl, rfl⟩ := pure_eq_ok_iff.mp hpure
    obtain ⟨hextends, htag, hitem⟩ := singleAttribute_spec regular hfirst
    obtain ⟨hextends', htag', hlist⟩ := ih hrest
    refine ⟨hextends.trans hextends', htag'.trans htag, fun fits hbegins => ?_⟩
    rw [spell_append, List.append_assoc]
    exact hitem fits (hextends'.prefix_of hbegins) (hlist fits hbegins)

/-- The attribute list of an element, which is there if its flag says so. -/
theorem attributes_spec {list : List Attribute} {tokens : List Token} {token : UInt8}
    (regular : source.language.Regular)
    (hflag : token &&& Code.hasAttributes = 0 ↔ list.isEmpty)
    (h : attributes source list state = .ok tokens state') :
    Extends source state state' ∧ state'.tagPage = state.tagPage ∧
      (Fits source target entries → state'.table.entries <+: entries →
        Attributes target state.attributePage token (spell tokens) list state'.attributePage) := by
  unfold attributes at h
  split at h
  · rename_i hempty
    obtain ⟨rfl, rfl⟩ := pure_eq_ok_iff.mp h
    rw [List.isEmpty_iff.mp hempty]
    exact ⟨Extends.refl _ _, rfl, fun _ _ => .absent (hflag.mpr hempty)⟩
  · rename_i hempty
    obtain ⟨each, state1, heach, hpure⟩ := bind_eq_ok_iff.mp h
    obtain ⟨rfl, rfl⟩ := pure_eq_ok_iff.mp hpure
    obtain ⟨hextends, htag, hlist⟩ := eachAttribute_spec regular.toRegularAttributes heach
    refine ⟨hextends, htag, fun fits hbegins => .present (mt hflag.mp hempty) ?_⟩
    rw [spell_append]
    exact hlist fits hbegins

end Attributes

/-! ## What is read back -/

/-- The code page of tags after a tag was written. A literal one leaves it as it is. -/
def pageAfter (page : UInt8) (code? : Option TagCode) : UInt8 :=
  (code?.map (·.page)).getD page

mutual

/-- The element that is read where one was written while some code page of tags was the current
one, and the page that is current behind it. The namespace is that of the code page of its tag,
comments are gone and neighbouring texts are one. -/
def readBack (language : Language) (whitespace : Whitespace) (page : UInt8) :
    Element → Element × UInt8
  | ⟨name, uri, attributes, children⟩ =>
    let code? := language.tagCode? uri name page
    let inside := readBackAll language whitespace (pageAfter page code?) children
    (⟨name, code?.bind fun code => language.uri? code.page, attributes,
      Decoding.arrange whitespace inside.1⟩, inside.2)

/-- The pieces that are read where nodes were written. -/
def readBackAll (language : Language) (whitespace : Whitespace) (page : UInt8) :
    List Node → List Node × UInt8
  | [] => ([], page)
  | .element child :: rest =>
    let first := readBack language whitespace page child
    let others := readBackAll language whitespace first.2 rest
    (.element first.1 :: others.1, others.2)
  | .text content :: rest =>
    let others := readBackAll language whitespace page rest
    (.text content :: others.1, others.2)
  | .comment _ :: rest => readBackAll language whitespace page rest

end

/-! ## Elements -/

section Elements
variable {source : Context} {target : Decoding.Context} {entries : List String}
  {state state' : State}

/-- The flags of a tag leave its token alone and say what follows it. -/
theorem flags_bits (token : UInt8) (hrange : token ≤ 0x3F) (list : List Attribute)
    (children : List Node) :
    Code.base (token ||| flags list children) = token ∧
      ((token ||| flags list children) &&& Code.hasAttributes = 0 ↔ list.isEmpty) ∧
        ((token ||| flags list children) &&& Code.hasContent = 0 ↔ children.isEmpty) := by
  have hbits : ∀ token : UInt8, ∀ (noAttributes noContent : Bool), token ≤ 0x3F →
      let flags := (if noAttributes then 0 else Code.hasAttributes) |||
        (if noContent then 0 else Code.hasContent)
      Code.base (token ||| flags) = token ∧
        ((token ||| flags) &&& Code.hasAttributes = 0 ↔ noAttributes) ∧
          ((token ||| flags) &&& Code.hasContent = 0 ↔ noContent) := by
    apply byte_forall
    decide +kernel
  exact hbits token list.isEmpty children.isEmpty hrange

theorem switchTagPage_eq (page : UInt8) (state : State) :
    switchTagPage page state =
      if page = state.tagPage then .ok [] state
      else .ok [.switchPage page] { state with
        events := state.events ++ [.tagPageWritten state.tagPage page]
        tagPage := page } := by
  change (if page = state.tagPage then _ else _ : Encode (List Token)) state = _
  split <;> rfl

theorem switchTagPage_spec {page : UInt8} {tokens : List Token}
    (h : switchTagPage page state = .ok tokens state') :
    Extends source state state' ∧ state'.attributePage = state.attributePage ∧
      state'.tagPage = page ∧ Switches state.tagPage page tokens := by
  rw [switchTagPage_eq] at h
  split at h
  · rename_i hpage
    cases h
    exact ⟨.ofTable rfl, rfl, hpage.symm, .inl ⟨hpage, rfl⟩⟩
  · cases h
    exact ⟨.ofTable rfl, rfl, rfl, .inr rfl⟩

theorem tag_some_eq_ok {name : String} {uri : Option String} {flags : UInt8} {code : TagCode}
    {tokens : List Token} (h : tag source name uri flags (some code) state = .ok tokens state') :
    ∃ switch, switchTagPage code.page state = .ok switch state' ∧
      tokens = switch ++ [.code (code.token ||| flags)] := by
  obtain ⟨switch, state1, hswitch, hpure⟩ := bind_eq_ok_iff.mp h
  obtain ⟨rfl, rfl⟩ := pure_eq_ok_iff.mp hpure
  exact ⟨switch, hswitch, rfl⟩

theorem tag_none_eq_ok {name : String} {uri : Option String} {flags : UInt8}
    {tokens : List Token} (h : tag source name uri flags none state = .ok tokens state') :
    ∃ said literal, report (.literalTag name uri) state = .ok () said ∧
      literalName source name said = .ok literal state' ∧
        tokens = [.literal (Code.literal ||| flags) literal] := by
  obtain ⟨_, said, hreport, h⟩ := bind_eq_ok_iff.mp h
  obtain ⟨literal, state1, hliteral, hpure⟩ := bind_eq_ok_iff.mp h
  obtain ⟨rfl, rfl⟩ := pure_eq_ok_iff.mp hpure
  exact ⟨said, literal, hreport, hliteral, rfl⟩

/-- A tag stands behind a change of page, if there is one. -/
theorem tag_spec {name : String} {uri : Option String} {list : List Attribute}
    {children : List Node} {tokens : List Token} {code? : Option TagCode}
    (regular : source.language.Regular)
    (hcode : source.language.tagCode? uri name state.tagPage = code?)
    (h : tag source name uri (flags list children) code? state = .ok tokens state') :
    Extends source state state' ∧ state'.attributePage = state.attributePage ∧
      state'.tagPage = pageAfter state.tagPage code? ∧
        ∃ switch token operand, spell tokens = spell switch ++ token :: operand ∧
          Switches state.tagPage state'.tagPage switch ∧
          (token &&& Code.hasAttributes = 0 ↔ list.isEmpty) ∧
          (token &&& Code.hasContent = 0 ↔ children.isEmpty) ∧
          (Fits source target entries → state'.table.entries <+: entries →
            TagName target state'.tagPage token operand name
              (code?.bind fun code => source.language.uri? code.page)) := by
  cases code? with
  | some code =>
    obtain ⟨switch, hswitch, rfl⟩ := tag_some_eq_ok h
    obtain ⟨hextends, hattribute, hpage, hswitches⟩ := switchTagPage_spec hswitch
    obtain ⟨hlow, hhigh⟩ := Language.tagRange_of_tagCode? regular hcode
    obtain ⟨hbase, hattributes, hcontent⟩ := flags_bits code.token hhigh list children
    have hfound := Language.tagName?_of_tagCode? regular hcode
    refine ⟨hextends, hattribute, hpage, switch, code.token ||| flags list children, [],
      spell_append _ _, hpage ▸ hswitches, hattributes, hcontent, fun fits _ => ?_⟩
    rw [hpage]
    have hname : TagName target code.page (code.token ||| flags list children) [] name
        (target.language.uri? code.page) :=
      .registered (by rw [hbase]; exact hlow) (by rw [hbase, fits.language]; exact hfound)
    rw [fits.language] at hname
    exact hname
  | none =>
    obtain ⟨said, literal, hreport, hliteral, rfl⟩ := tag_none_eq_ok h
    obtain ⟨hextends, htag, hpage⟩ := report_eq_ok source hreport
    obtain ⟨hextends', htag', hpage', hname⟩ := literalName_spec hliteral
    obtain ⟨hbase, hattributes, hcontent⟩ := flags_bits Code.literal (by decide) list children
    refine ⟨hextends.trans hextends', hpage'.trans hpage, htag'.trans htag, [],
      Code.literal ||| flags list children, literal.bytes, by simp [Token.bytes],
      .inl ⟨htag'.trans htag, rfl⟩, hattributes, hcontent, fun fits hbegins => ?_⟩
    exact .literal hbase (hname fits hbegins)

theorem opaqueEncode_of_decode {encoding : OpaqueEncoding} {text : String} {data : Bytes}
    (h : encoding.decode text = some data) : encoding.encode data = text := by
  unfold OpaqueEncoding.decode at h
  obtain ⟨-, hsame⟩ := Option.filter_eq_some_iff.mp h
  simpa using hsame

/-- The data that some nodes are the text of. -/
def dataOf? (encoding : OpaqueEncoding) (children : List Node) : Option Bytes :=
  match children with
  | [.text content] => encoding.decode content
  | _ => none

theorem dataOf?_eq_some {encoding : OpaqueEncoding} {children : List Node} {data : Bytes}
    (h : dataOf? encoding children = some data) : children = [.text (encoding.encode data)] := by
  unfold dataOf? at h
  split at h
  · rw [opaqueEncode_of_decode h]
  · cases h

theorem opaqueData?_eq (name : String) (children : List Node) (code : TagCode) (state : State) :
    opaqueData? source name children code state =
      if source.language.isOpaque code then
        .ok (dataOf? source.opaqueEncoding children)
          (if (dataOf? source.opaqueEncoding children).isNone then
            { state with events := state.events ++ [.notOpaque name source.opaqueEncoding] }
          else state)
      else .ok none state := by
  change (if source.language.isOpaque code then
      if (dataOf? source.opaqueEncoding children).isNone then
        report (.notOpaque name source.opaqueEncoding) >>= fun _ =>
          pure (dataOf? source.opaqueEncoding children)
      else pure (dataOf? source.opaqueEncoding children)
    else pure none : Encode (Option Bytes)) state = _
  split
  · cases dataOf? source.opaqueEncoding children <;> rfl
  · rfl

/-- Data is written instead of a text only if it stands for the text. -/
theorem opaqueData?_spec {name : String} {children : List Node} {code : TagCode}
    {data? : Option Bytes} (h : opaqueData? source name children code state = .ok data? state') :
    Extends source state state' ∧ state'.tagPage = state.tagPage ∧
      state'.attributePage = state.attributePage ∧ ∀ data, data? = some data →
        children = [.text (source.opaqueEncoding.encode data)] := by
  rw [opaqueData?_eq] at h
  split at h
  · cases h
    refine ⟨.ofTable ?_, ?_, ?_, fun data => dataOf?_eq_some⟩ <;> split <;> rfl
  · cases h
    refine ⟨Extends.refl _ _, rfl, rfl, ?_⟩
    rintro data ⟨⟩

/-- What an element has behind its attributes: nothing, data, or nodes. -/
def behind (source : Context) (depth : Nat) (name : String) (children : List Node)
    (code? : Option TagCode) : Encode (List Token) :=
  if children.isEmpty then pure []
  else (match code? with
      | some code => opaqueData? source name children code
      | none => pure none) >>= fun data? =>
    match data? with
    | some data => lift (Frame.counted? data) >>= fun _ => pure [.opaqueData data, .finish]
    | none => content source depth children >>= fun inner => pure (inner ++ [.finish])

theorem element_eq (depth : Nat) (name : String) (uri : Option String) (list : List Attribute)
    (children : List Node) :
    element source depth ⟨name, uri, list, children⟩ =
      if source.maxDepth < depth then throw (.tooDeep source.maxDepth)
      else get >>= fun current =>
        tag source name uri (flags list children)
          (source.language.tagCode? uri name current.tagPage) >>= fun start =>
        attributes source list >>= fun attributes =>
        behind source (depth + 1) name children
          (source.language.tagCode? uri name current.tagPage) >>= fun inner =>
        pure (start ++ attributes ++ inner) := by
  rw [element]
  split
  · rfl
  · refine bind_congr fun current => ?_
    dsimp only
    refine bind_congr fun start => bind_congr fun attributes => ?_
    unfold behind
    split
    · rw [pure_bind, List.append_nil]
    · have hrest (data? : Option Bytes) :
          (match data? with
            | some data => lift (Frame.counted? data) >>= fun _ =>
              pure (start ++ attributes ++ [.opaqueData data, .finish])
            | none => content source (depth + 1) children >>= fun inner =>
              pure (start ++ attributes ++ inner ++ [.finish]) : Encode (List Token)) =
          (match data? with
            | some data => lift (Frame.counted? data) >>= fun _ => pure [.opaqueData data, .finish]
            | none => content source (depth + 1) children >>= fun inner =>
              pure (inner ++ [.finish]) : Encode (List Token)) >>= fun inner =>
            pure (start ++ attributes ++ inner) := by
        cases data? <;> simp only [bind_assoc, pure_bind, List.append_assoc]
      rw [bind_assoc]
      cases source.language.tagCode? uri name current.tagPage
      · exact bind_congr hrest
      · exact bind_congr hrest

/-- An element that is written is its tag, its attributes and what stands behind these. -/
theorem element_eq_ok {depth : Nat} {name : String} {uri : Option String} {list : List Attribute}
    {children : List Node} {tokens : List Token} {state last : State}
    (h : element source depth ⟨name, uri, list, children⟩ state = .ok tokens last) :
    depth ≤ source.maxDepth ∧ ∃ start opened attributes listed inner,
      tokens = start ++ attributes ++ inner ∧
      tag source name uri (flags list children)
        (source.language.tagCode? uri name state.tagPage) state = .ok start opened ∧
      Encoding.attributes source list opened = .ok attributes listed ∧
      behind source (depth + 1) name children
        (source.language.tagCode? uri name state.tagPage) listed = .ok inner last := by
  rw [element_eq] at h
  split at h
  · cases h
  · rename_i hdepth
    obtain ⟨_, _, hget, h⟩ := bind_eq_ok_iff.mp h
    cases hget
    obtain ⟨start, opened, tag, h⟩ := bind_eq_ok_iff.mp h
    obtain ⟨attributes, listed, items, h⟩ := bind_eq_ok_iff.mp h
    obtain ⟨inner, _, inside, h⟩ := bind_eq_ok_iff.mp h
    cases h
    exact ⟨Nat.le_of_not_lt hdepth, start, opened, attributes, listed, inner, rfl, tag, items,
      inside⟩

/-- The current code pages of a state. -/
def State.pages (state : State) : Pages :=
  ⟨state.tagPage, state.attributePage⟩

/-- An element behind a change of page, if there is one. -/
def Placed (target : Decoding.Context) (depth : Nat) (pages : Pages) (bytes : Bytes)
    (root : Element) (last : Pages) : Prop :=
  ∃ switch page back, Switches pages.tags page switch ∧ bytes = spell switch ++ back ∧
    IsElement target depth ⟨page, pages.attributes⟩ back root last

theorem Switches.content {depth : Nat} {old new attributes : UInt8} {last : Pages}
    {tokens : List Token} {bytes : Bytes} {pieces : List Node} (h : Switches old new tokens)
    (rest : Content target depth ⟨new, attributes⟩ bytes pieces last) :
    Content target depth ⟨old, attributes⟩ (spell tokens ++ bytes) pieces last := by
  rcases h with ⟨rfl, rfl⟩ | rfl
  · exact rest
  · exact .switchPage rest

theorem Switches.body {old new : UInt8} {tokens : List Token} {bytes : Bytes} {root : Element}
    (h : Switches old new tokens) (rest : Body target new bytes root) :
    Body target old (spell tokens ++ bytes) root := by
  rcases h with ⟨rfl, rfl⟩ | rfl
  · exact rest
  · exact .switchPage rest

theorem Placed.content {depth : Nat} {pages next last : Pages} {front back : Bytes}
    {child : Element} {pieces : List Node} (h : Placed target (depth + 1) pages front child next)
    (rest : Content target depth next back pieces last) :
    Content target depth pages (front ++ back) (.element child :: pieces) last := by
  obtain ⟨switch, page, bytes, hswitch, rfl, helement⟩ := h
  rw [List.append_assoc]
  refine hswitch.content ?_
  cases helement with
  | empty start flag => exact .empty start flag rest
  | nested start flag content made =>
    rw [List.cons_append, List.append_assoc]
    exact .nested start flag content made rest

theorem Placed.body {page : UInt8} {bytes : Bytes} {root : Element} {last : Pages}
    (h : Placed target 1 ⟨page, 0⟩ bytes root last) : Body target page bytes root := by
  obtain ⟨switch, page', back, hswitch, rfl, helement⟩ := h
  exact hswitch.body (.root helement)

theorem arrange_nil (whitespace : Whitespace) : Decoding.arrange whitespace [] = [] := rfl

/-- What is written of nodes is content, up to the token that ends it. -/
def WritesContent (source : Context) (target : Decoding.Context) (entries : List String)
    (depth : Nat) (children : List Node) : Prop :=
  ∀ {tokens : List Token} {state state' : State},
    content source (depth + 1) children state = .ok tokens state' →
      Extends source state state' ∧ (Fits source target entries →
        state'.table.entries <+: entries → depth + Node.levelsAll children ≤ target.maxDepth →
          state'.tagPage =
            (readBackAll source.language target.whitespace state.tagPage children).2 ∧
          Content target depth state.pages (spell tokens ++ [Code.finish])
            (readBackAll source.language target.whitespace state.tagPage children).1 state'.pages)

theorem behind_spec {depth : Nat} {name : String} {children : List Node} {code? : Option TagCode}
    {tokens : List Token} (hchildren : children.isEmpty = false)
    (hcontent : WritesContent source target entries depth children)
    (h : behind source (depth + 1) name children code? state = .ok tokens state') :
    Extends source state state' ∧ (Fits source target entries →
      state'.table.entries <+: entries → depth + Node.levelsAll children ≤ target.maxDepth →
        state'.tagPage =
          (readBackAll source.language target.whitespace state.tagPage children).2 ∧
        Content target depth state.pages (spell tokens)
          (readBackAll source.language target.whitespace state.tagPage children).1 state'.pages) := by
  unfold behind at h
  rw [if_neg (by simp [hchildren])] at h
  obtain ⟨data?, state1, hdata, h⟩ := bind_eq_ok_iff.mp h
  obtain ⟨hextends, htag, hattribute, hsame⟩ : Extends source state state1 ∧
      state1.tagPage = state.tagPage ∧ state1.attributePage = state.attributePage ∧
        ∀ data, data? = some data →
          children = [.text (source.opaqueEncoding.encode data)] := by
    cases code? with
    | some code => exact opaqueData?_spec hdata
    | none =>
      obtain ⟨rfl, rfl⟩ := pure_eq_ok_iff.mp hdata
      refine ⟨Extends.refl _ _, rfl, rfl, ?_⟩
      rintro data ⟨⟩
  have hpages : state1.pages = state.pages := Pages.ext htag hattribute
  cases data? with
  | some data =>
    obtain ⟨bytes, state2, hlift, hpure⟩ := bind_eq_ok_iff.mp h
    obtain ⟨rfl, rfl⟩ := pure_eq_ok_iff.mp hpure
    obtain ⟨hframe, rfl⟩ := lift_eq_ok_iff.mp hlift
    obtain ⟨hsize, -⟩ := Frame.counted?_eq_ok_iff.mp hframe
    cases hsame data rfl
    refine ⟨hextends, fun fits _ _ => ⟨htag, ?_⟩⟩
    rw [hpages, ← fits.opaqueEncoding]
    have hoperand : Operand target .data (Frame.counted data) (target.opaqueEncoding.encode data) :=
      .data (counted_of_lt hsize)
    exact .string hoperand .finish
  | none =>
    obtain ⟨inner, state2, hinner, hpure⟩ := bind_eq_ok_iff.mp h
    obtain ⟨rfl, rfl⟩ := pure_eq_ok_iff.mp hpure
    obtain ⟨hextends', hspec⟩ := hcontent hinner
    rw [htag, hpages] at hspec
    rw [spell_append]
    exact ⟨hextends.trans hextends', hspec⟩

theorem element_spec_of_content (regular : source.language.Regular) {depth : Nat} {name : String}
    {uri : Option String} {list : List Attribute} {children : List Node} {tokens : List Token}
    (hcontent : WritesContent source target entries depth children)
    (h : element source depth ⟨name, uri, list, children⟩ state = .ok tokens state') :
    Extends source state state' ∧ (Fits source target entries →
      state'.table.entries <+: entries → depth + Node.levelsAll children ≤ target.maxDepth →
        state'.tagPage = (readBack source.language target.whitespace state.tagPage
          ⟨name, uri, list, children⟩).2 ∧
        Placed target depth state.pages (spell tokens)
          (readBack source.language target.whitespace state.tagPage
            ⟨name, uri, list, children⟩).1 state'.pages) := by
  obtain ⟨-, start, state1, attributes, state2, inner, rfl, htag, hattributes, hbehind⟩ :=
    element_eq_ok h
  obtain ⟨hextends1, hpage1, htagPage1, switch, token, operand, hstart, hswitch, hflag, hinside,
    hname⟩ := tag_spec regular rfl htag
  obtain ⟨hextends2, htagPage2, hlist⟩ := attributes_spec regular hflag hattributes
  have hpage2 := htagPage2.trans htagPage1
  have hattributes1 : (⟨state1.tagPage, state.attributePage⟩ : Pages) = state1.pages :=
    Pages.ext rfl hpage1.symm
  have hhead (fits : Fits source target entries) (hbegins : state2.table.entries <+: entries)
      (hdepth : depth ≤ target.maxDepth) :
      Head target depth state1.pages token (operand ++ spell attributes)
        ⟨name, (source.language.tagCode? uri name state.tagPage).bind fun code =>
          source.language.uri? code.page, list, []⟩ state2.pages := by
    have hpages : state2.pages = ⟨state1.tagPage, state2.attributePage⟩ := Pages.ext htagPage2 rfl
    rw [hpages]
    exact .mk hdepth (hname fits (hextends2.prefix_of hbegins)) (hlist fits hbegins)
  cases hempty : children.isEmpty with
  | true =>
    unfold behind at hbehind
    rw [if_pos hempty] at hbehind
    obtain ⟨rfl, rfl⟩ := pure_eq_ok_iff.mp hbehind
    cases List.isEmpty_iff.mp hempty
    refine ⟨hextends1.trans hextends2, fun fits hbegins hdepth => ⟨hpage2, ?_⟩⟩
    refine ⟨switch, state1.tagPage, token :: (operand ++ spell attributes), hswitch, ?_, ?_⟩
    · rw [spell_append, spell_append, hstart]
      simp
    · change IsElement target depth ⟨state1.tagPage, state.attributePage⟩ _ _ _
      rw [hattributes1]
      exact .empty (hhead fits hbegins (by omega)) (hinside.mpr rfl)
  | false =>
    obtain ⟨hextends3, hspec⟩ := behind_spec hempty hcontent hbehind
    refine ⟨(hextends1.trans hextends2).trans hextends3, fun fits hbegins hdepth => ?_⟩
    obtain ⟨hpage, hcontent⟩ := hspec fits hbegins hdepth
    have hbegins2 := hextends3.prefix_of hbegins
    rw [hpage2] at hpage hcontent
    refine ⟨hpage, switch, state1.tagPage, token :: (operand ++ spell attributes ++ spell inner),
      hswitch, ?_, ?_⟩
    · rw [spell_append, spell_append, hstart]
      simp
    · change IsElement target depth ⟨state1.tagPage, state.attributePage⟩ _ _ _
      rw [hattributes1]
      exact .nested (hhead fits hbegins2 (by omega)) (mt hinside.mp (by simp [hempty])) hcontent
        (Decoding.children_iff.mpr rfl)

mutual

theorem element_spec (regular : source.language.Regular) (depth : Nat) :
    ∀ (root : Element) {tokens : List Token} {state state' : State},
      element source depth root state = .ok tokens state' →
        Extends source state state' ∧ (Fits source target entries →
          state'.table.entries <+: entries → depth + root.levels ≤ target.maxDepth + 1 →
            state'.tagPage = (readBack source.language target.whitespace state.tagPage root).2 ∧
            Placed target depth state.pages (spell tokens)
              (readBack source.language target.whitespace state.tagPage root).1 state'.pages)
  | ⟨_, _, _, children⟩, _, _, _, h => by
    obtain ⟨hextends, hspec⟩ :=
      element_spec_of_content regular (content_spec regular depth children) h
    refine ⟨hextends, fun fits hbegins hdepth => hspec fits hbegins ?_⟩
    rw [Element.levels_mk] at hdepth
    omega

theorem content_spec (regular : source.language.Regular) (depth : Nat) :
    ∀ children : List Node, WritesContent source target entries depth children
  | [], _, _, _, h => by
    obtain ⟨rfl, rfl⟩ := pure_eq_ok_iff.mp h
    exact ⟨Extends.refl _ _, fun _ _ _ => ⟨rfl, .finish⟩⟩
  | .element child :: rest, _, _, _, h => by
    obtain ⟨front, state1, hchild, h⟩ := bind_eq_ok_iff.mp h
    obtain ⟨back, state2, hrest, hpure⟩ := bind_eq_ok_iff.mp h
    obtain ⟨rfl, rfl⟩ := pure_eq_ok_iff.mp hpure
    obtain ⟨hextends, hfirst⟩ := element_spec regular (depth + 1) child hchild
    obtain ⟨hextends', hothers⟩ := content_spec regular depth rest hrest
    refine ⟨hextends.trans hextends', fun fits hbegins hdepth => ?_⟩
    rw [Node.levelsAll_element] at hdepth
    obtain ⟨hpage, hplaced⟩ := hfirst fits (hextends'.prefix_of hbegins) (by omega)
    obtain ⟨hpage', hcontent⟩ := hothers fits hbegins (by omega)
    rw [hpage] at hpage' hcontent
    refine ⟨hpage', ?_⟩
    rw [spell_append, List.append_assoc]
    exact hplaced.content hcontent
  | .text data :: rest, _, state, _, h => by
    obtain ⟨first, state1, htext, h⟩ := bind_eq_ok_iff.mp h
    obtain ⟨back, state2, hrest, hpure⟩ := bind_eq_ok_iff.mp h
    obtain ⟨rfl, rfl⟩ := pure_eq_ok_iff.mp hpure
    obtain ⟨hextends, htag, hattribute, hoperand⟩ := text_spec htext
    obtain ⟨hextends', hothers⟩ := content_spec regular depth rest hrest
    refine ⟨hextends.trans hextends', fun fits hbegins hdepth => ?_⟩
    obtain ⟨kind, operand, hbytes, hoperand⟩ := hoperand fits (hextends'.prefix_of hbegins)
    obtain ⟨hpage', hcontent⟩ := hothers fits hbegins hdepth
    have hpages : state1.pages = state.pages := Pages.ext htag hattribute
    rw [htag] at hpage' hcontent
    rw [hpages] at hcontent
    refine ⟨hpage', ?_⟩
    rw [spell_cons, hbytes, List.append_assoc, List.cons_append]
    exact .string hoperand hcontent
  | .comment _ :: rest, _, _, _, h =>
    content_spec regular depth rest h

end

theorem levelsAll_of_behind {depth : Nat} {name : String} {children : List Node}
    {code? : Option TagCode} {tokens : List Token}
    (hcontent : ∀ {tokens state state'}, content source depth children state = .ok tokens state' →
      Node.levelsAll children + depth ≤ source.maxDepth + 1)
    (hdepth : depth ≤ source.maxDepth + 1)
    (h : behind source depth name children code? state = .ok tokens state') :
    Node.levelsAll children + depth ≤ source.maxDepth + 1 := by
  unfold behind at h
  split at h
  · rename_i hempty
    rw [List.isEmpty_iff.mp hempty, Node.levelsAll]
    omega
  · obtain ⟨data?, state1, hdata, h⟩ := bind_eq_ok_iff.mp h
    cases data? with
    | some data =>
      have hchildren : children = [.text (source.opaqueEncoding.encode data)] := by
        cases code? with
        | some code => exact (opaqueData?_spec hdata).2.2.2 data rfl
        | none => cases hdata
      rw [hchildren, Node.levelsAll, Node.levelsAll]
      omega
    | none =>
      obtain ⟨inner, state2, hinner, -⟩ := bind_eq_ok_iff.mp h
      exact hcontent hinner

mutual

/-- What is written is nested no deeper than is allowed. -/
theorem levels_le_of_element (depth : Nat) :
    ∀ (root : Element) {tokens : List Token} {state state' : State},
      element source depth root state = .ok tokens state' →
        root.levels + depth ≤ source.maxDepth + 1
  | ⟨name, uri, list, children⟩, tokens, state, state', h => by
    obtain ⟨hdepth, start, opened, attributes, listed, inner, -, -, -, hbehind⟩ := element_eq_ok h
    have hlevels := levelsAll_of_behind (levelsAll_le_of_content (depth + 1) (by omega) children)
      (by omega) hbehind
    rw [Element.levels_mk]
    omega

theorem levelsAll_le_of_content (depth : Nat) (hdepth : depth ≤ source.maxDepth + 1) :
    ∀ (children : List Node) {tokens : List Token} {state state' : State},
      content source depth children state = .ok tokens state' →
        Node.levelsAll children + depth ≤ source.maxDepth + 1
  | [], _, _, _, _ => by
    rw [Node.levelsAll]
    omega
  | .element child :: rest, _, _, _, h => by
    obtain ⟨front, state1, hchild, h⟩ := bind_eq_ok_iff.mp h
    obtain ⟨back, state2, hrest, -⟩ := bind_eq_ok_iff.mp h
    have hfirst := levels_le_of_element depth child hchild
    have hothers := levelsAll_le_of_content depth hdepth rest hrest
    rw [Node.levelsAll_element]
    omega
  | .text data :: rest, _, _, _, h => by
    obtain ⟨first, state1, -, h⟩ := bind_eq_ok_iff.mp h
    obtain ⟨back, state2, hrest, -⟩ := bind_eq_ok_iff.mp h
    rw [Node.levelsAll]
    exact levelsAll_le_of_content depth hdepth rest hrest
  | .comment _ :: rest, _, _, _, h => by
    rw [Node.levelsAll]
    exact levelsAll_le_of_content depth hdepth rest h

end

end Elements

end BinaryXml.Encoding
