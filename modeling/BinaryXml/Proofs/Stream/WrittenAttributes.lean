import BinaryXml.Proofs.Language.Attributes
import BinaryXml.Proofs.Stream.Canonical

/-! # Attribute lists that are written and read

A list is written in the middle of a run: the code page of attributes may be any, and the string
table has what came before. It is read with the string table that the run ends with.

* `Begun` and `Belongs`: the states in which a list may be written, and the readers of the stream.
* `ListRead`: a reader takes some bytes as a list, wherever they stand.
* `listRead_of_eachAttribute`: the bytes that are written of a list are read as that list.
* `attributes_chosen_and_read`: the tokens of attributes are the best ones, which lists are written,
  and that they are read as they were.
-/

namespace BinaryXml.Encoding

open Grammar

set_option autoImplicit false

/-! ## The middle of a run -/

/-- What a run has done before it writes attributes: the header is made from `table`, and the table
has grown since. -/
structure Begun (options : EncodeOptions) (root : Element) (table : TableBuilder) (state : State) :
    Prop where
  header : ∃ id, publicId options {} = .ok id table
  grown : Extends (Context.of options table root) { table } state

/-- A reader of the stream of a run that ends with a string table. A header has no room for more
than 4 GiB. -/
structure Belongs (options : EncodeOptions) (final : TableBuilder) (target : Decoding.Context) :
    Prop where
  language : target.language = options.language
  charset : target.charset = .utf8
  table : target.table = ⟨final.bytes⟩
  size : final.bytes.length < Frame.countLimit

/-- At a code page of attributes, a reader takes exactly `bytes` as a list. Behind it the code page
is `last`. -/
def ListRead (target : Decoding.Context) (page : UInt8) (bytes : Bytes) (list : List Attribute)
    (last : UInt8) : Prop :=
  ∀ (state : Decoding.State) (rest : Bytes), state.attributePage = page →
    state.cursor.rest = bytes ++ rest →
      ∃ state', Decoding.attributes target state.cursor.rest.length none state = .ok list state' ∧
        state'.attributePage = last ∧ state'.tagPage = state.tagPage ∧
          Moves state.cursor state'.cursor bytes

theorem listRead_of_attributeList {target : Decoding.Context} {page last : UInt8} {bytes : Bytes}
    {list : List Attribute} (h : AttributeList target page bytes list last) :
    ListRead target page bytes list last := by
  rintro state rest rfl hrest
  have hform : Decoding.AttributesForm target none state.pages bytes list ⟨state.tagPage, last⟩ :=
    ⟨rfl, .fresh h⟩
  obtain ⟨state', hrun, hpages, hmoves⟩ :=
    (Decoding.reads_attributes _ none (Nat.le_refl _)).complete hform hrest
  exact ⟨state', hrun, congrArg Pages.attributes hpages, congrArg Pages.tags hpages, hmoves⟩

/-! ## Reading -/

/-- Attributes never hold opaque data, so its encoding has no part in what is written of them. -/
theorem eachAttribute_opaqueEncoding (source : Context) (encoding : OpaqueEncoding)
    (list : List Attribute) :
    eachAttribute { source with opaqueEncoding := encoding } list = eachAttribute source list := by
  induction list with
  | nil => rfl
  | cons first rest ih =>
    rw [eachAttribute, eachAttribute, ih]
    rfl

section Runs
variable {options : EncodeOptions} {root : Element} {table : TableBuilder} {state state' : State}

theorem Begun.clean_table (h : Begun options root table state) :
    TableBuilder.Clean table.entries := by
  obtain ⟨⟨id, hid⟩, -⟩ := h
  exact (publicId_eq_ok hid).2.1

theorem Begun.clean (h : Begun options root table state) :
    TableBuilder.Clean state.table.entries :=
  h.grown.clean h.clean_table

/-- What is written of a list is read as that list, by every reader of the stream. -/
theorem listRead_of_eachAttribute (regular : options.language.RegularAttributes)
    (begun : Begun options root table state) {list : List Attribute} {tokens : List Token}
    (h : eachAttribute (Context.of options table root) list state = .ok tokens state')
    {final : State} (grown : Extends (Context.of options table root) state' final)
    {target : Decoding.Context} (belongs : Belongs options final.table target) :
    ListRead target state.attributePage (spell (tokens ++ [.finish])) list
      state'.attributePage := by
  -- The reader may take opaque data in another way than the writer.
  let writing : EncodeOptions := { options with opaqueEncoding := target.opaqueEncoding }
  have hwritten : eachAttribute (Context.of writing table root) list state = .ok tokens state' := by
    rw [← h, ← eachAttribute_opaqueEncoding (Context.of options table root) target.opaqueEncoding]
    rfl
  obtain ⟨hextends, -, hlist⟩ := eachAttribute_spec regular hwritten
  have hgrown : Extends (Context.of writing table root) { table } final :=
    (begun.grown.trans hextends).trans grown
  have fits : Fits (Context.of writing table root) target final.table.entries :=
    fits_of_extends begun.clean_table hgrown belongs.size belongs.language belongs.charset rfl
      belongs.table
  have hread := listRead_of_attributeList (hlist fits (grown.prefix_of (List.prefix_refl _)))
  rwa [spell_append]

/-- Only a zero character that no token stands for keeps a list from being written, as long as
32 bits are enough for the string table. -/
theorem exists_eachAttribute_iff (begun : Begun options root table state) {list : List Attribute}
    (hafford : Affords state.table.entries
      (listDemands (Context.of options table root) state.attributePage list).1) :
    (∃ tokens state', eachAttribute (Context.of options table root) list state = .ok tokens state') ↔
      ListWritable options.language state.attributePage list := by
  have hwrites : Writes (eachAttribute (Context.of options table root) list) state _ _ _ :=
    writes_eachAttribute list rfl
  constructor
  · rintro ⟨tokens, state', h⟩
    exact (hwrites.sound begun.clean h).1
  · intro hwritable
    exact hwrites.complete begun.clean hwritable hafford

end Runs

/-! ## Choices, writing and reading -/

/-- The tokens of an attribute are the best ones of the language, and whatever they are, a list is
read as it was written, with the same code page behind it. -/
theorem attributes_chosen_and_read (language : Language) :
    (∀ (name value : String) (current : UInt8),
      (language.attributeStart? name value current = none ↔
        ∀ entry ∈ language.attributeStarts, ¬ entry.Starts name value) ∧
      ∀ entry, language.attributeStart? name value current = some entry →
        language.BestStart name value current entry) ∧
    (∀ (value : String) (current : UInt8),
      (language.attributeValue? value current = none ↔
        ∀ entry ∈ language.attributeValues, entry.value ≠ value) ∧
      ∀ entry, language.attributeValue? value current = some entry →
        language.BestValue value current entry) ∧
    ∀ (options : EncodeOptions) (root : Element) (table : TableBuilder) (state : State),
      options.language = language → Begun options root table state → ∀ list : List Attribute,
        (Affords state.table.entries
            (listDemands (Context.of options table root) state.attributePage list).1 →
          ((∃ tokens state',
              eachAttribute (Context.of options table root) list state = .ok tokens state') ↔
            ListWritable language state.attributePage list)) ∧
        (language.RegularAttributes → ∀ (tokens : List Token) (state' final : State),
          eachAttribute (Context.of options table root) list state = .ok tokens state' →
            Extends (Context.of options table root) state' final →
              ∀ target, Belongs options final.table target →
                ListRead target state.attributePage (spell (tokens ++ [.finish])) list
                  state'.attributePage) := by
  refine ⟨fun name value current => ⟨Language.attributeStart?_eq_none_iff, fun entry hentry => ?_⟩,
    fun value current => ⟨Language.attributeValue?_eq_none_iff, fun entry hentry => ?_⟩, ?_⟩
  · exact Language.bestStart_of_attributeStart? hentry
  · exact Language.bestValue_of_attributeValue? hentry
  · rintro options root table state rfl begun list
    refine ⟨fun hafford => exists_eachAttribute_iff begun hafford, ?_⟩
    intro regular tokens state' final hwritten hgrown target belongs
    exact listRead_of_eachAttribute regular begun hwritten hgrown belongs

/-- A language with attributes on two code pages. -/
def linkLanguage : Language where
  name := "link"
  publicId := none
  fpi := "f"
  dtd := "d"
  doctypeRoot := "link"
  pages := [⟨0, "u", [⟨0x05, "link"⟩], []⟩]
  attributeStarts := [⟨0, 0x05, "href", ""⟩, ⟨0, 0x06, "href", "http://"⟩, ⟨0, 0x07, "type", ""⟩,
    ⟨1, 0x05, "lang", ""⟩, ⟨1, 0x46, "href", ""⟩]
  attributeValues := [⟨0, 0x85, "text/plain"⟩, ⟨0, 0x86, "example.com"⟩, ⟨1, 0xC5, "en"⟩]

/-- Attributes with a front and a token behind it, with a page between name and value, with the rest
of a value that is spelt, and with a name that is. -/
def linkAttributes : List Attribute :=
  [⟨"href", "http://example.com"⟩, ⟨"type", "en"⟩, ⟨"href", "http://a"⟩, ⟨"href", "b"⟩,
    ⟨"title", "text/plain"⟩, ⟨"lang", ""⟩]

/-- A run that writes them. -/
def linkOptions : EncodeOptions :=
  { language := linkLanguage, useStringTable := true }

/-- The tokens of these attributes on code page 1. -/
def linkTokens : List Token := [
  .switchPage 0, .code 0x06, .code 0x86, .code 0x07, .switchPage 1, .code 0xC5,
  .switchPage 0, .code 0x06, .inlineString "a", .code 0x05, .inlineString "b",
  .literal Code.literal (.indexed 0), .code 0x85, .switchPage 1, .code 0x05]

theorem attributes_chosen_and_read_link :
    linkLanguage.RegularAttributes ∧
      Begun linkOptions ⟨"link", none, linkAttributes, []⟩ {} { table := {}, attributePage := 1 } ∧
      (∃ events, eachAttribute (Context.of linkOptions {} ⟨"link", none, linkAttributes, []⟩)
        linkAttributes { table := {}, attributePage := 1 } =
          .ok linkTokens { table := ⟨["title"]⟩, attributePage := 1, events }) ∧
      ListWritable linkLanguage 1 linkAttributes ∧
      ListRead ⟨linkLanguage, .utf8, ⟨Frame.terminated "title"⟩, .preserve, .hex, 4⟩ 1
        (spell (linkTokens ++ [.finish])) linkAttributes 1 := by
  have regular : linkLanguage.RegularAttributes := by
    refine ⟨?_, ?_, ?_, ?_⟩ <;> decide
  have begun : Begun linkOptions ⟨"link", none, linkAttributes, []⟩ {}
      { table := {}, attributePage := 1 } := ⟨⟨_, rfl⟩, .refl _ _⟩
  have hwritten : ∃ events, eachAttribute
      (Context.of linkOptions {} ⟨"link", none, linkAttributes, []⟩) linkAttributes
        { table := {}, attributePage := 1 } =
          .ok linkTokens { table := ⟨["title"]⟩, attributePage := 1, events } := ⟨_, rfl⟩
  have belongs : Belongs linkOptions ⟨["title"]⟩
      ⟨linkLanguage, .utf8, ⟨Frame.terminated "title"⟩, .preserve, .hex, 4⟩ :=
    ⟨rfl, rfl, rfl, by decide⟩
  obtain ⟨hwritable, hread⟩ := (attributes_chosen_and_read linkLanguage).2.2 linkOptions _ _ _ rfl
    begun linkAttributes
  refine ⟨regular, begun, hwritten, ?_⟩
  obtain ⟨events, hwritten⟩ := hwritten
  refine ⟨(hwritable ?_).mp ⟨_, _, hwritten⟩, ?_⟩
  · decide +kernel
  · exact hread regular _ _ _ hwritten (.refl _ _) _ belongs

end BinaryXml.Encoding
