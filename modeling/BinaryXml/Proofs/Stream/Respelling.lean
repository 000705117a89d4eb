import BinaryXml.Proofs.Document.Respelled
import BinaryXml.Proofs.Stream.Emission

/-! # Namespaces in the encoder

* `Agree`: two steps do the same, up to what they report.
* `agree_element`: so it is for two trees that differ in the spelling of namespaces only.
* `BeginsOn`: the tokens that begin an element in the namespace of a code page.
* `encodeDocument_respelled`: a stream does not depend on the spelling of namespaces, and an element
  in the namespace of a code page has a token of this page or a literal.
-/

namespace BinaryXml.Encoding

set_option autoImplicit false

/-! ## Steps up to reports -/

/-- A state without the reports so far. -/
def State.unreported (state : State) : State :=
  { state with events := [] }

theorem State.unreported_eq_iff {state state' : State} :
    state.unreported = state'.unreported ↔ state.table = state'.table ∧
      state.tagPage = state'.tagPage ∧ state.attributePage = state'.attributePage := by
  cases state
  cases state'
  simp [unreported]

/-- What a step comes to, without the reports. -/
def unreported {α : Type} : EStateM.Result Error State α → EStateM.Result Error State α
  | .ok value state => .ok value state.unreported
  | .error error state => .error error state.unreported

theorem cases_of_unreported {α : Type} {result result' : EStateM.Result Error State α}
    (h : unreported result = unreported result') :
    (∃ value state state', result = .ok value state ∧ result' = .ok value state' ∧
        state.unreported = state'.unreported) ∨
      ∃ error state state', result = .error error state ∧ result' = .error error state' ∧
        state.unreported = state'.unreported := by
  cases result with
  | ok value state =>
    cases result' with
    | ok value' state' =>
      obtain ⟨rfl, hstate⟩ := EStateM.Result.ok.inj h
      exact .inl ⟨value, state, state', rfl, rfl, hstate⟩
    | error error state' => cases h
  | error error state =>
    cases result' with
    | ok value state' => cases h
    | error error' state' =>
      obtain ⟨rfl, hstate⟩ := EStateM.Result.error.inj h
      exact .inr ⟨error, state, state', rfl, rfl, hstate⟩

/-- From states that differ in the reports so far, two steps come to results that differ in the
reports. -/
def Agree {α : Type} (first second : Encode α) : Prop :=
  ∀ ⦃state state' : State⦄, state.unreported = state'.unreported →
    unreported (first state) = unreported (second state')

section Agree
variable {α β : Type}

theorem agree_pure (value : α) : Agree (pure value) (pure value) :=
  fun _ _ hstate => congrArg (EStateM.Result.ok value) hstate

theorem agree_throw (error : Error) : Agree (throw error : Encode α) (throw error) :=
  fun _ _ hstate => congrArg (EStateM.Result.error error) hstate

theorem agree_lift (result : Except Error α) : Agree (lift result) (lift result) := by
  cases result with
  | ok value => exact agree_pure value
  | error error => exact agree_throw error

theorem Agree.bind {first second : Encode α} {next next' : α → Encode β} (h : Agree first second)
    (h' : ∀ value, Agree (next value) (next' value)) : Agree (first >>= next) (second >>= next') := by
  intro state state' hstate
  change unreported (EStateM.bind first next state) = unreported (EStateM.bind second next' state')
  unfold EStateM.bind
  rcases cases_of_unreported (h hstate) with ⟨value, middle, middle', hfirst, hsecond, hmiddle⟩ |
    ⟨error, middle, middle', hfirst, hsecond, hmiddle⟩
  · rw [hfirst, hsecond]
    exact h' value hmiddle
  · rw [hfirst, hsecond]
    exact congrArg (EStateM.Result.error error) hmiddle

theorem Agree.map {first second : Encode α} (h : Agree first second) (f : α → β) :
    Agree (first >>= fun value => pure (f value)) (second >>= fun value => pure (f value)) :=
  h.bind fun value => agree_pure (f value)

/-- What a step looks up in the state is the same on both sides, but for the reports. -/
theorem Agree.getThen {next next' : State → Encode α}
    (h : ∀ state state', state.unreported = state'.unreported → Agree (next state) (next' state')) :
    Agree (get >>= next) (get >>= next') :=
  fun state state' hstate => h state state' hstate hstate

theorem agree_report (event event' : Event) : Agree (report event) (report event') :=
  fun _ _ hstate => congrArg (EStateM.Result.ok ()) hstate

theorem agree_intern (entry : String) : Agree (intern entry) (intern entry) := by
  intro state state' hstate
  obtain ⟨htable, htag, hattribute⟩ := State.unreported_eq_iff.mp hstate
  unfold intern
  rw [htable]
  cases TableBuilder.intern entry state'.table with
  | ok offset table =>
    exact congrArg (EStateM.Result.ok offset)
      (State.unreported_eq_iff.mpr ⟨rfl, htag, hattribute⟩)
  | error error table =>
    exact congrArg (EStateM.Result.error error)
      (State.unreported_eq_iff.mpr ⟨rfl, htag, hattribute⟩)

theorem agree_switchTagPage (page : UInt8) : Agree (switchTagPage page) (switchTagPage page) := by
  intro state state' hstate
  obtain ⟨htable, htag, hattribute⟩ := State.unreported_eq_iff.mp hstate
  rw [switchTagPage_eq, switchTagPage_eq, htag]
  split
  · exact congrArg (EStateM.Result.ok _) hstate
  · exact congrArg (EStateM.Result.ok _) (State.unreported_eq_iff.mpr ⟨htable, rfl, hattribute⟩)

theorem agree_switchAttributePage (page : UInt8) :
    Agree (switchAttributePage page) (switchAttributePage page) := by
  intro state state' hstate
  obtain ⟨htable, htag, hattribute⟩ := State.unreported_eq_iff.mp hstate
  rw [switchAttributePage_eq, switchAttributePage_eq, hattribute]
  split
  · exact congrArg (EStateM.Result.ok _) hstate
  · exact congrArg (EStateM.Result.ok _) (State.unreported_eq_iff.mpr ⟨htable, htag, rfl⟩)

end Agree

/-! ## Elements -/

section Elements
variable {source : Context}

theorem agree_text (content : String) : Agree (text source content) (text source content) := by
  unfold text
  split
  · exact (agree_intern content).map _
  · exact (agree_lift _).map _

theorem agree_literalName (name : String) :
    Agree (literalName source name) (literalName source name) := by
  unfold literalName
  split
  · exact (agree_intern name).map _
  · exact (agree_lift _).map _

theorem agree_attributeValue (value : String) :
    Agree (attributeValue source value) (attributeValue source value) := by
  unfold attributeValue
  split
  · exact agree_pure []
  · refine .getThen fun state state' hstate => ?_
    rw [(State.unreported_eq_iff.mp hstate).2.2]
    split
    · exact (agree_switchAttributePage _).map _
    · exact (agree_text value).map _

theorem agree_singleAttribute :
    ∀ first : Attribute, Agree (singleAttribute source first) (singleAttribute source first)
  | ⟨name, value⟩ => by
    unfold singleAttribute
    refine .getThen fun state state' hstate => ?_
    rw [(State.unreported_eq_iff.mp hstate).2.2]
    split
    · exact (agree_switchAttributePage _).bind fun _ => (agree_attributeValue _).map _
    · exact (agree_report _ _).bind fun _ => (agree_literalName name).bind fun _ =>
        (agree_attributeValue value).map _

theorem agree_eachAttribute (list : List Attribute) :
    Agree (eachAttribute source list) (eachAttribute source list) := by
  induction list with
  | nil => exact agree_pure []
  | cons first rest ih => exact (agree_singleAttribute first).bind fun _ => ih.map _

theorem agree_attributes (list : List Attribute) :
    Agree (attributes source list) (attributes source list) := by
  unfold attributes
  split
  · exact agree_pure []
  · exact (agree_eachAttribute list).map _

/-- The namespace of a tag is in the reports only. -/
theorem agree_tag (name : String) (uri uri' : Option String) (flags : UInt8)
    (code? : Option TagCode) :
    Agree (tag source name uri flags code?) (tag source name uri' flags code?) := by
  cases code? with
  | some code => exact (agree_switchTagPage code.page).map _
  | none => exact (agree_report _ _).bind fun _ => (agree_literalName name).map _

theorem dataOf?_of_respelled {children children' : List Node}
    (h : Node.RespelledAll children children') (encoding : OpaqueEncoding) :
    dataOf? encoding children = dataOf? encoding children' := by
  cases h with
  | nil => rfl
  | element first others => rfl
  | comment others => rfl
  | text others => cases others <;> rfl

theorem agree_dataInside? {children children' : List Node} (h : Node.RespelledAll children children')
    (name : String) (code? : Option TagCode) :
    Agree (dataInside? source name children code?) (dataInside? source name children' code?) := by
  cases code? with
  | none => exact agree_pure none
  | some code =>
    intro state state' hstate
    obtain hfields := State.unreported_eq_iff.mp hstate
    simp only [dataInside?, opaqueData?_eq, dataOf?_of_respelled h]
    split
    · refine congrArg (EStateM.Result.ok _) (State.unreported_eq_iff.mpr ?_)
      split <;> exact hfields
    · exact congrArg (EStateM.Result.ok _) hstate

mutual

/-- Trees that differ in the spelling of namespaces are written in the same way. -/
theorem agree_element : ∀ {root root' : Element}, root.Respelled root' → ∀ depth : Nat,
    Agree (element source depth root) (element source depth root')
  | ⟨name, _, list, _⟩, _, .mk space inside, depth => by
    rw [element_eq, element_eq, flags, flags, inside.isEmpty]
    split
    · exact agree_throw _
    · refine .getThen fun state state' hstate => ?_
      rw [(State.unreported_eq_iff.mp hstate).2.1, Language.tagCode?_of_alike space]
      exact (agree_tag _ _ _ _ _).bind fun start => (agree_attributes list).bind fun attributes =>
        (agree_behind inside (depth + 1) name _).map _

theorem agree_behind : ∀ {children children' : List Node}, Node.RespelledAll children children' →
    ∀ (depth : Nat) (name : String) (code? : Option TagCode),
      Agree (behind source depth name children code?) (behind source depth name children' code?)
  | _, _, inside, depth, name, code? => by
    rw [behind_eq, behind_eq, inside.isEmpty]
    split
    · exact agree_pure []
    · refine (agree_dataInside? inside name code?).bind fun data? => ?_
      cases data? with
      | some data => exact (agree_lift _).map _
      | none => exact (agree_content inside depth).map _

theorem agree_content : ∀ {nodes nodes' : List Node}, Node.RespelledAll nodes nodes' →
    ∀ depth : Nat, Agree (content source depth nodes) (content source depth nodes')
  | _, _, .nil, _ => agree_pure []
  | _, _, .element first others, depth =>
    (agree_element first depth).bind fun _ => (agree_content others depth).map _
  | _, _, .text others, depth =>
    (agree_text _).bind fun _ => (agree_content others depth).map _
  | _, _, .comment others, depth => agree_content others depth

end

end Elements

/-! ## Code pages of namespaces -/

/-- The tokens that begin an element where the tag is looked up on one code page, and the page of
tags afterwards: a token of this page behind a change to it from another page, or a literal. Pages
are known by their numbers, so the tags are those of the first page with the number. -/
inductive BeginsOn (language : Language) (codePage : CodePage) (name : String)
    (flags current : UInt8) : List Token → UInt8 → Prop
  | token {token : UInt8}
      (found : language.tagOnPage? name codePage.page = some ⟨codePage.page, token⟩)
      (own : language.codePage? codePage.page = some codePage → ⟨token, name⟩ ∈ codePage.tags) :
      BeginsOn language codePage name flags current
        ((if codePage.page = current then [] else [.switchPage codePage.page]) ++
          [.code (token ||| flags)]) codePage.page
  | literal (literal : LiteralName)
      (missing : language.tagOnPage? name codePage.page = none) :
      BeginsOn language codePage name flags current [.literal (Code.literal ||| flags) literal]
        current

section Pages
variable {source : Context} {name uri : String} {flags : UInt8} {codePage : CodePage}
  {tokens : List Token} {state last : State}

theorem tagCode?_of_find? {language : Language}
    (h : language.pages.find? (fun entry => Namespace.same entry.uri uri) = some codePage)
    (name : String) (current : UInt8) :
    language.tagCode? (some uri) name current = language.tagOnPage? name codePage.page := by
  have hpage : language.pageOfUri? uri = some codePage.page := by
    rw [Language.pageOfUri?, h, Option.map_some]
  rw [Language.tagCode?, Option.bind_some, hpage]

theorem tagPage_of_literalName {literal : LiteralName}
    (h : literalName source name state = .ok literal last) : last.tagPage = state.tagPage := by
  unfold literalName at h
  split at h
  · obtain ⟨offset, _, hintern, h⟩ := bind_eq_ok_iff.mp h
    cases h
    exact (intern_eq_ok hintern).2.2.1
  · obtain ⟨bytes, _, hlift, h⟩ := bind_eq_ok_iff.mp h
    cases h
    rw [(lift_eq_ok_iff.mp hlift).2]

/-- Where a namespace leads to a code page, the tag is looked up on this page only, whichever is
the current one. -/
theorem beginsOn_of_tag
    (h : source.language.pages.find? (fun entry => Namespace.same entry.uri uri) = some codePage)
    (htag : tag source name (some uri) flags
      (source.language.tagCode? (some uri) name state.tagPage) state = .ok tokens last) :
    BeginsOn source.language codePage name flags state.tagPage tokens last.tagPage := by
  rw [tagCode?_of_find? h] at htag
  cases hcode : source.language.tagOnPage? name codePage.page with
  | none =>
    rw [hcode] at htag
    obtain ⟨reported, literal, hreport, hliteral, rfl⟩ := tag_none_eq_ok htag
    rw [tagPage_of_literalName hliteral, (report_eq_ok source hreport).2.1]
    exact .literal literal hcode
  | some code =>
    rw [hcode] at htag
    obtain ⟨page, token⟩ := code
    obtain ⟨hpage, found, hfound, hentry⟩ := Language.tagOnPage?_eq_some hcode
    dsimp only at hpage
    subst hpage
    obtain ⟨switch, hswitch, rfl⟩ := tag_some_eq_ok htag
    have own : source.language.codePage? codePage.page = some codePage →
        ⟨token, name⟩ ∈ codePage.tags := by
      intro hown
      rw [hfound] at hown
      cases hown
      exact hentry
    have begins : BeginsOn source.language codePage name flags state.tagPage _ _ := .token hcode own
    rw [switchTagPage_eq] at hswitch
    split at hswitch
    · rename_i hcurrent
      cases hswitch
      dsimp only at hcurrent
      rwa [if_pos hcurrent, hcurrent] at begins
    · rename_i hcurrent
      cases hswitch
      rwa [if_neg hcurrent] at begins

end Pages

/-! ## Documents -/

section Documents
variable {options : EncodeOptions} {document document' : Document}

theorem context_of_respelled {root root' : Element} (h : root.Respelled root')
    (table : TableBuilder) : Context.of options table root = Context.of options table root' := by
  simp only [Context.of, sharedTexts, h.texts]

theorem encodeDocument_of_respelled (h : document.root.Respelled document'.root) :
    encodeDocument options document = encodeDocument options document' := by
  have hstripped := h.stripped options.whitespace
  unfold encodeDocument run
  split
  · rfl
  · cases publicId options {} with
    | error error table => rfl
    | ok id table =>
      dsimp only
      rw [context_of_respelled hstripped]
      have hagree := @agree_element (Context.of options table
        (document'.root.stripped options.whitespace)) _ _ hstripped 1 { table } { table } rfl
      rcases cases_of_unreported hagree with ⟨tokens, state, state', hfirst, hsecond, hstate⟩ |
        ⟨error, state, state', hfirst, hsecond, -⟩
      · rw [hfirst, hsecond]
        dsimp only
        rw [(State.unreported_eq_iff.mp hstate).1]
      · rw [hfirst, hsecond]

/-- The encoder sees a namespace only through the code page that it names. A document is written in
the same way, or refused for the same reason, however its namespaces are spelled. An element in the
namespace of a code page begins with a token of the first such page, or with a literal, whichever
page is the current one. -/
theorem encodeDocument_respelled (h : document.root.Respelled document'.root) :
    encodeDocument options document = encodeDocument options document' ∧
      ∀ uri, (∃ codePage ∈ options.language.pages, Namespace.same codePage.uri uri = true) →
        ∃ codePage, options.language.pages.find? (Namespace.same ·.uri uri) = some codePage ∧
          ∀ (source : Context) (depth : Nat) (name : String) (list : List Attribute)
            (children : List Node) (state last : State) (tokens : List Token),
            source.language = options.language →
            element source depth ⟨name, some uri, list, children⟩ state = .ok tokens last →
            ∃ start rest page, tokens = start ++ rest ∧ BeginsOn options.language codePage name
              (flags list children) state.tagPage start page := by
  refine ⟨encodeDocument_of_respelled h, ?_⟩
  rintro uri ⟨found, hmem, hsame⟩
  obtain ⟨codePage, hfirst⟩ : ∃ codePage,
      options.language.pages.find? (Namespace.same ·.uri uri) = some codePage :=
    Option.isSome_iff_exists.mp (List.find?_isSome.mpr ⟨found, hmem, hsame⟩)
  refine ⟨codePage, hfirst, ?_⟩
  intro source depth name list children state last tokens hlanguage hrun
  obtain ⟨-, start, opened, attributes, listed, inner, rfl, htag, -, -⟩ := element_eq_ok hrun
  rw [← hlanguage] at hfirst ⊢
  exact ⟨start, attributes ++ inner, _, List.append_assoc _ _ _, beginsOn_of_tag hfirst htag⟩

/-- A tag that a literal stands for inside of a tag of another page. -/
def spelled : Document :=
  ⟨⟨"Sync", some "AirSync:", [], [
    .element ⟨"Body", some "AirSyncBase:", [], [.element ⟨"Other", some "AirSync:", [], []⟩]⟩]⟩⟩

/-- The same document with its namespaces spelled in other ways. -/
def respelled : Document :=
  ⟨⟨"Sync", some "airsync", [], [
    .element ⟨"Body", some "AIRSYNCBASE::", [], [.element ⟨"Other", some "AirSync", [], []⟩]⟩]⟩⟩

def spelledStream : Bytes := [
  0x03, 0x01, 0x6A, 0x00, 0x45, 0x00, 0x11, 0x4A, 0x04, 0x4F, 0x74, 0x68, 0x65, 0x72, 0x00, 0x01,
  0x01]

theorem encodeDocument_respelled_spelled :
    let options : EncodeOptions := {}
    spelled.root.Respelled respelled.root ∧
      encodeDocument options respelled = .ok spelledStream ∧
      ∃ codePage, options.language.pages.find? (Namespace.same ·.uri "airsync") = some codePage ∧
        ∃ start page, BeginsOn options.language codePage "Sync" Code.hasContent 0 start page := by
  intro options
  have hspelled : spelled.root.Respelled respelled.root :=
    .mk (.same (by decide +kernel)) (.element (.mk (.same (by decide +kernel)) (.element
      (.mk (.same (by decide +kernel)) .nil) .nil)) .nil)
  have hstream : encodeDocument options spelled = .ok spelledStream := by decide +kernel
  obtain ⟨hsame, begins⟩ := @encodeDocument_respelled options _ _ hspelled
  rw [hsame] at hstream
  obtain ⟨codePage, hfind, hbegins⟩ := begins "airsync"
    ⟨ActiveSync.airSync, List.mem_cons_self, by decide +kernel⟩
  obtain ⟨-, id, table, tokens, state, -, helement, -⟩ := run_eq_ok hstream
  obtain ⟨start, -, page, -, hstart⟩ := hbegins _ _ _ _ _ _ _ _ rfl helement
  have hflags : flags [] (Node.strippedAll options.whitespace respelled.root.children) =
      Code.hasContent := by
    decide +kernel
  exact ⟨hspelled, hstream, codePage, hfind, start, page, hflags ▸ hstart⟩

end Documents

end BinaryXml.Encoding
