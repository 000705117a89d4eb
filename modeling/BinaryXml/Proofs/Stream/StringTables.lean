import BinaryXml.Proofs.Stream.Uses

/-! # String tables that are written

* `Shares` and `TablesNames`: which texts go into the table, and whether names do.
* `Written`: the token that is written for a use, by the options alone.
* `StringTableOf`: what a string table has to do with the tokens behind it.
* `stringTable_of_encodeDocument`: this holds for every stream that is written.
-/

namespace BinaryXml

open Grammar

set_option autoImplicit false

/-! ## Strings on their first use -/

section FirstUses
variable {α : Type} [BEq α] [LawfulBEq α]

theorem eraseDups_concat (list : List α) (a : α) [Decidable (a ∈ list)] :
    (list ++ [a]).eraseDups = if a ∈ list then list.eraseDups else list.eraseDups ++ [a] := by
  rw [List.eraseDups_append]
  split
  · rename_i hmem
    simp [List.removeAll, hmem]
  · rename_i hmem
    simp [List.removeAll, hmem, List.eraseDups_cons]

theorem nodup_eraseDups (list : List α) : list.eraseDups.Nodup := by
  classical
  induction list using List.reverseRecOn with
  | nil => exact List.nodup_nil
  | append_singleton list a ih =>
    rw [eraseDups_concat]
    split
    · exact ih
    · rename_i hmem
      refine List.nodup_append.mpr ⟨ih, by simp, ?_⟩
      rintro b hb _ hc rfl
      rw [List.mem_singleton.mp hc] at hb
      exact hmem (List.mem_eraseDups.mp hb)

end FirstUses

namespace TableBuilder

/-- The offset of an entry is the number of the bytes of those in front of it. -/
def At (entries : List String) (offset : UInt32) (entry : String) : Prop :=
  ∃ before after, entries = before ++ entry :: after ∧
    offset.toNat = (before.flatMap Frame.terminated).length

theorem at_of_refers {entries : List String} {offset : UInt32} {entry : String}
    (hsize : (bytes ⟨entries⟩).length < limit) (h : Refers entries offset entry) :
    At entries offset entry := by
  obtain ⟨before, after, rfl, rfl⟩ := h
  rw [bytes_append, List.length_append] at hsize
  refine ⟨before, after, rfl, ?_⟩
  rw [UInt32.toNat_ofNat', Nat.mod_eq_of_lt (by unfold limit at hsize; omega)]
  rfl

end TableBuilder

/-- The offset into the string table that a token has. -/
def Token.offset? : Token → Option UInt32
  | .literal _ (.indexed offset) | .tableString offset => some offset
  | _ => none

theorem Token.isUse_of_offset? {token : Token} {offset : UInt32} (h : token.offset? = some offset) :
    token.isUse = true := by
  cases token <;> first | rfl | cases h

namespace Encoding

/-! ## What goes into the table -/

section Definitions
variable (options : EncodeOptions) (root : Element)

/-- A text is shared if it is long enough and occurs more than once. -/
def Shares (content : String) : Prop :=
  options.useStringTable = true ∧ leastShared ≤ (Utf8.encode content).length ∧
    2 ≤ root.texts.count content

/-- Names go into the table if it is asked for, or if it is there for the identifier. -/
def TablesNames : Prop :=
  options.useStringTable = true ∨
    options.includePublicId = true ∧ options.language.publicId = none

instance (content : String) : Decidable (Shares options root content) :=
  inferInstanceAs (Decidable (_ ∧ _ ∧ _))

instance : Decidable (TablesNames options) :=
  inferInstanceAs (Decidable (_ ∨ _ ∧ _))

/-- The string of a use, if it goes into the table. -/
def tabled? : Use → Option String
  | .name entry => if TablesNames options then some entry else none
  | .text entry => if Shares options root entry then some entry else none
  | .data _ => none

/-- The identifier that a header carries. A name of the language stands at the front of the table. -/
def headerId : PublicId :=
  if options.includePublicId then
    match options.language.publicId with
    | some value => .number value
    | none => .indexed 0
  else .number PublicId.unknown

/-- The uses of a document, of which the code pages are all zero at the start. -/
def documentUses : List Use :=
  elementUses options.language options.opaqueEncoding ⟨0, 0⟩ root

/-- The tokens that the encoder writes for the outermost element of a document. -/
def TokensOf (document : Document) (tokens : List Token) : Prop :=
  ∃ id table state, publicId options {} = .ok id table ∧
    element (Context.of options table (document.root.stripped options.whitespace)) 1
      (document.root.stripped options.whitespace) { table } = .ok tokens state

/-- The token that is written for a use. -/
inductive Written (entries : List String) : Use → Token → Prop
  | shared {content : String} {offset : UInt32} (shares : Shares options root content)
      (place : TableBuilder.At entries offset content) :
      Written entries (.text content) (.tableString offset)
  | inline {content : String} (unshared : ¬ Shares options root content) :
      Written entries (.text content) (.inlineString content)
  | indexed {name : String} {token : UInt8} {offset : UInt32} (tabled : TablesNames options)
      (place : TableBuilder.At entries offset name) :
      Written entries (.name name) (.literal token (.indexed offset))
  | literal {name : String} {token : UInt8} (untabled : ¬ TablesNames options) :
      Written entries (.name name) (.literal token (.inline name))
  | data {bytes : Bytes} : Written entries (.data bytes) (.opaqueData bytes)

/-- The entries of a string table, and the tokens of the stream that has it. -/
structure StringTableOf (entries : List String) (tokens : List Token) : Prop where
  /-- No entry stands there twice, and none has a character that would end it. -/
  distinct : entries.Nodup
  clean : ∀ entry ∈ entries, '\x00' ∉ entry.toList
  /-- The entries come in the order of their first use, the name of the language first. -/
  ordered : entries =
    (initialEntries options ++ (documentUses options root).filterMap (tabled? options root)).eraseDups
  /-- Every name, text and data is written by one token, and there is no other such token. -/
  written : List.Forall₂ (Written options root entries) (documentUses options root)
    (tokens.filter Token.isUse)
  /-- Every offset is that of the entry that is meant. -/
  exact : ∀ token ∈ tokens, ∀ offset, token.offset? = some offset →
    ∃ use ∈ documentUses options root, ∃ entry, tabled? options root use = some entry ∧
      TableBuilder.At entries offset entry
  /-- Every entry is referred to, but for the name of the language. -/
  referred : ∀ entry ∈ entries, entry ∉ initialEntries options →
    ∃ token ∈ tokens, ∃ offset, token.offset? = some offset ∧ TableBuilder.At entries offset entry
  /-- There are no offsets into an empty table, and a table that has no names is empty. -/
  quiet : entries = [] → ∀ token ∈ tokens, token.offset? = none
  unnamed : ¬ TablesNames options → entries = []

end Definitions

section Table
variable {options : EncodeOptions} {root : Element} {source : Context} {entries : List String}

/-! ## The table grows by first uses -/

theorem foldl_meet_eq_eraseDups (list : List String) :
    list.foldl (fun entries text => Demand.meet entries (.entry text)) [] = list.eraseDups := by
  induction list using List.reverseRecOn with
  | nil => rfl
  | append_singleton list text ih =>
    rw [List.foldl_append, ih, List.foldl_cons, List.foldl_nil, meet_entry, eraseDups_concat]
    simp only [List.mem_eraseDups]

theorem foldl_initialEntries (list : List String) :
    list.foldl (fun entries text => Demand.meet entries (.entry text)) (initialEntries options) =
      (initialEntries options ++ list).eraseDups := by
  rw [← foldl_meet_eq_eraseDups, List.foldl_append]
  congr 1
  unfold initialEntries
  split <;> rfl

/-- What uses demand of the table is what they put into it. -/
theorem foldl_demands {tabled : Use → Option String}
    (h : ∀ use : Use, ∀ entries : List String, (use.demands source).foldl Demand.meet entries =
      (tabled use).elim entries fun text => Demand.meet entries (.entry text))
    (uses : List Use) (entries : List String) :
    (uses.flatMap (Use.demands source)).foldl Demand.meet entries = (uses.filterMap tabled).foldl
      (fun entries text => Demand.meet entries (.entry text)) entries := by
  induction uses generalizing entries with
  | nil => rfl
  | cons use rest ih =>
    rw [List.flatMap_cons, List.foldl_append, h, ih, List.filterMap_cons]
    cases tabled use <;> rfl

end Table

/-! ## The options decide -/

section Options
variable {options : EncodeOptions} {root : Element} {table : TableBuilder} {id : PublicId}

theorem mem_sharedTexts_iff {content : String} :
    content ∈ (Context.of options table root).sharedTexts ↔ Shares options root content := by
  unfold Context.of Shares
  dsimp only
  split
  · rename_i hused
    unfold sharedTexts
    dsimp only
    rw [List.mem_filter, Bool.and_eq_true, decide_eq_true_eq, decide_eq_true_eq]
    constructor
    · rintro ⟨-, hlong, hoften⟩
      exact ⟨hused, hlong, hoften⟩
    · rintro ⟨-, hlong, hoften⟩
      exact ⟨List.count_pos_iff.mp (Nat.lt_of_succ_lt hoften), hlong, hoften⟩
  · rename_i hunused
    exact iff_of_false List.not_mem_nil fun h => hunused h.1

theorem literalsInTable_iff (root : Element) (h : table.entries = initialEntries options) :
    (Context.of options table root).literalsInTable = true ↔ TablesNames options := by
  unfold Context.of TablesNames
  rw [h, initialEntries]
  cases options.useStringTable <;> cases options.includePublicId <;>
    cases options.language.publicId <;> simp

theorem headerId_of_publicId (h : publicId options {} = .ok id table) : id = headerId options := by
  unfold publicId at h
  unfold headerId
  cases hinclude : options.includePublicId with
  | false =>
    rw [hinclude] at h
    cases h
    rfl
  | true =>
    rw [hinclude] at h
    cases hvalue : options.language.publicId with
    | some value =>
      rw [hvalue] at h
      cases h
      rfl
    | none =>
      rw [hvalue] at h
      obtain ⟨offset, table', hintern, hpure⟩ := bind_eq_ok_iff.mp h
      cases hpure
      -- The table is empty, so that the name of the language becomes its first entry.
      have hnone : TableBuilder.offset? {} options.language.fpi = none := rfl
      unfold TableBuilder.intern at hintern
      rw [hnone] at hintern
      dsimp only at hintern
      split at hintern
      · cases hintern
      · split at hintern <;> cases hintern
        rfl

/-- What a use demands of the table is its string, if that goes into the table. -/
theorem foldl_useDemands (h : table.entries = initialEntries options) (use : Use)
    (entries : List String) :
    (use.demands (Context.of options table root)).foldl Demand.meet entries =
      (tabled? options root use).elim entries fun text => Demand.meet entries (.entry text) := by
  cases use with
  | name entry =>
    rw [Use.demands, nameDemands, tabled?, if_congr (literalsInTable_iff root h) rfl rfl]
    split <;> rfl
  | text entry =>
    rw [Use.demands, textDemands, tabled?,
      if_congr (List.contains_iff_mem.trans mem_sharedTexts_iff) rfl rfl]
    split <;> rfl
  | data bytes => rfl

theorem written_of_spelt {entries : List String} {use : Use} {token : Token}
    (h : table.entries = initialEntries options)
    (hsize : (TableBuilder.bytes ⟨entries⟩).length < TableBuilder.limit)
    (hspelt : Spelt (Context.of options table root) entries use token) :
    Written options root entries use token := by
  cases hspelt with
  | shared shared refers =>
    exact .shared (mem_sharedTexts_iff.mp shared) (TableBuilder.at_of_refers hsize refers)
  | inline unshared => exact .inline (mt mem_sharedTexts_iff.mpr unshared)
  | indexed tabled refers =>
    exact .indexed ((literalsInTable_iff root h).mp tabled) (TableBuilder.at_of_refers hsize refers)
  | literal untabled =>
    exact .literal (mt (literalsInTable_iff root h).mpr (by simp [untabled]))
  | data => exact .data

end Options

/-! ## Uses and their tokens -/

section Written
variable {options : EncodeOptions} {root : Element} {entries : List String} {use : Use}
  {token : Token}

theorem exists_of_mem_left {α β : Type} {related : α → β → Prop} {list : List α} {others : List β}
    (h : List.Forall₂ related list others) {a : α} (hmem : a ∈ list) :
    ∃ b ∈ others, related a b := by
  induction h with
  | nil => cases hmem
  | cons hfirst _ ih =>
    rcases List.mem_cons.mp hmem with rfl | hmem
    · exact ⟨_, List.mem_cons_self, hfirst⟩
    · obtain ⟨b, hb, hrelated⟩ := ih hmem
      exact ⟨b, List.mem_cons_of_mem _ hb, hrelated⟩

/-- A token with an offset is the one of a use whose string is in the table. -/
theorem Written.at_of_offset? (h : Written options root entries use token) {offset : UInt32}
    (hoffset : token.offset? = some offset) :
    ∃ entry, tabled? options root use = some entry ∧ TableBuilder.At entries offset entry := by
  cases h with
  | shared shares place =>
    cases hoffset
    exact ⟨_, if_pos shares, place⟩
  | indexed tabled place =>
    cases hoffset
    exact ⟨_, if_pos tabled, place⟩
  | inline => cases hoffset
  | literal => cases hoffset
  | data => cases hoffset

/-- A use whose string goes into the table has a token with an offset. -/
theorem Written.offset?_of_tabled? (h : Written options root entries use token) {entry : String}
    (htabled : tabled? options root use = some entry) :
    ∃ offset, token.offset? = some offset ∧ TableBuilder.At entries offset entry := by
  cases h with
  | shared shares place =>
    rw [tabled?, if_pos shares] at htabled
    cases htabled
    exact ⟨_, rfl, place⟩
  | indexed tabled place =>
    rw [tabled?, if_pos tabled] at htabled
    cases htabled
    exact ⟨_, rfl, place⟩
  | inline unshared =>
    rw [tabled?, if_neg unshared] at htabled
    cases htabled
  | literal untabled =>
    rw [tabled?, if_neg untabled] at htabled
    cases htabled
  | data => cases htabled

/-- Without names no string goes into the table. -/
theorem tabled?_eq_none (h : ¬ TablesNames options) (use : Use) :
    tabled? options root use = none := by
  cases use with
  | name entry => exact if_neg h
  | text entry => exact if_neg fun hshares => h (.inl hshares.1)
  | data bytes => rfl

theorem initialEntries_eq_nil (h : ¬ TablesNames options) : initialEntries options = [] := by
  unfold initialEntries
  refine if_neg fun hinitial => h (.inr ?_)
  rwa [Bool.and_eq_true, Option.isNone_iff_eq_none] at hinitial

end Written

/-! ## Streams -/

/-- A stream that is written has a string table that belongs to the tokens behind it. -/
theorem stringTable_of_encodeDocument {options : EncodeOptions} {document : Document}
    {stream : Bytes} (h : encodeDocument options document = .ok stream) :
    ∃ entries tokens,
      stream = options.version :: ((headerId options).bytes ++ (Number.encode Charset.utf8.mib ++
        Frame.counted (entries.flatMap Frame.terminated))) ++ tokens.flatMap Token.bytes ∧
      TokensOf options document tokens ∧
      StringTableOf options (document.root.stripped options.whitespace) entries tokens := by
  obtain ⟨-, id, table, tokens, state, hid, helement, hassemble⟩ := run_eq_ok h
  obtain ⟨hsize, rfl⟩ := assemble_eq_ok hassemble
  obtain ⟨-, hclean, hinitial⟩ := publicId_eq_ok hid
  obtain rfl := headerId_of_publicId hid
  refine ⟨state.table.entries, tokens, rfl, ⟨_, table, state, hid, helement⟩, ?_⟩
  obtain ⟨-, hentriesClean, hentries, -⟩ := (Document.writes_root table).sound hclean helement
  rw [elementDemands_eq_flatMap, foldl_demands (foldl_useDemands hinitial)] at hentries
  dsimp only at hentries
  rw [hinitial, foldl_initialEntries] at hentries
  generalize document.root.stripped options.whitespace = root at *
  have hordered : state.table.entries = (initialEntries options ++
    (documentUses options root).filterMap (tabled? options root)).eraseDups := hentries
  have hwritten : List.Forall₂ (Written options root state.table.entries)
      (documentUses options root) (tokens.filter Token.isUse) :=
    ((spells_element 1 root helement).spelt (List.prefix_refl _)).imp
      fun _ _ => written_of_spelt hinitial hsize
  have hexact : ∀ token ∈ tokens, ∀ offset, token.offset? = some offset →
      ∃ use ∈ documentUses options root, ∃ entry, tabled? options root use = some entry ∧
        TableBuilder.At state.table.entries offset entry := by
    intro token hmem offset hoffset
    have hfiltered : token ∈ tokens.filter Token.isUse :=
      List.mem_filter.mpr ⟨hmem, Token.isUse_of_offset? hoffset⟩
    obtain ⟨use, huse, hspelt⟩ := exists_of_mem_left hwritten.flip hfiltered
    exact ⟨use, huse, hspelt.at_of_offset? hoffset⟩
  refine ⟨hordered ▸ nodup_eraseDups _, hentriesClean, hordered, hwritten, hexact,
    fun entry hmem hother => ?_, fun hempty token hmem => ?_, fun hunnamed => ?_⟩
  · rw [hordered, List.mem_eraseDups, List.mem_append, List.mem_filterMap] at hmem
    obtain ⟨use, huse, htabled⟩ := hmem.resolve_left hother
    obtain ⟨token, hfiltered, hspelt⟩ := exists_of_mem_left hwritten huse
    exact ⟨token, (List.mem_filter.mp hfiltered).1, hspelt.offset?_of_tabled? htabled⟩
  · cases hoffset : token.offset? with
    | none => rfl
    | some offset =>
      obtain ⟨-, -, entry, -, before, after, hplace, -⟩ := hexact token hmem offset hoffset
      rw [hempty] at hplace
      simp at hplace
  · have hnone : (documentUses options root).filterMap (tabled? options root) = [] :=
      List.filterMap_eq_nil_iff.mpr fun use _ => tabled?_eq_none hunnamed use
    rw [hordered, initialEntries_eq_nil hunnamed, hnone]
    rfl

/-- A document with the name of its language in the header, literal names, a text that occurs twice,
in an attribute value as well, and a short one that does so. -/
def tabledDocument : Document :=
  ⟨⟨"a", none, [⟨"b", "shared"⟩], [.text "shared", .element ⟨"b", none, [], [.text "shared"]⟩,
    .text "c", .comment "shared", .text "c", .element ⟨"c", none, [⟨"a", ""⟩], [.text "once"]⟩]⟩⟩

def namedLanguage : Language :=
  { name := "named", publicId := none, fpi := "c", dtd := "d", doctypeRoot := "a", pages := [] }

def tabledOptions : EncodeOptions :=
  { language := namedLanguage, includePublicId := true, useStringTable := true }

theorem stringTable_of_encodeDocument_tabledDocument :
    ∃ stream, encodeDocument tabledOptions tabledDocument = .ok stream ∧
      ∃ entries tokens,
        stream = tabledOptions.version :: ((headerId tabledOptions).bytes ++
          (Number.encode Charset.utf8.mib ++ Frame.counted (entries.flatMap Frame.terminated))) ++
            tokens.flatMap Token.bytes ∧
        TokensOf tabledOptions tabledDocument tokens ∧
        StringTableOf tabledOptions (tabledDocument.root.stripped tabledOptions.whitespace) entries
          tokens := by
  have hencode : encodeDocument tabledOptions tabledDocument = .ok [
      0x03, 0x00, 0x00, 0x6A, 0x0D, 0x63, 0x00, 0x61, 0x00, 0x62, 0x00, 0x73, 0x68, 0x61, 0x72,
      0x65, 0x64, 0x00, 0xC4, 0x02, 0x04, 0x04, 0x83, 0x06, 0x01, 0x83, 0x06, 0x44, 0x04, 0x83,
      0x06, 0x01, 0x03, 0x63, 0x00, 0x03, 0x63, 0x00, 0xC4, 0x00, 0x04, 0x02, 0x01, 0x03, 0x6F,
      0x6E, 0x63, 0x65, 0x00, 0x01, 0x01] := by
    decide +kernel
  exact ⟨_, hencode, stringTable_of_encodeDocument hencode⟩

end Encoding

end BinaryXml
