import BinaryXml.Language.ActiveSync

/-! # Looking up tokens in both directions

* `Language.Regular`: the tokens of a language are told apart and lie where its kind of token may.
  `Language.RegularAttributes` says so of the tokens of attributes alone.
* `tagName?_of_tagCode?`: the token that is chosen for a tag stands for that tag.
* `tagCode?_eq_none_iff`: no token is chosen exactly if a name is no tag where it stands.
* `attributeStartAt?_of_attributeStart?` and `attributeValueAt?_of_attributeValue?`: the same for
  the tokens of an attribute.
-/

namespace BinaryXml

set_option autoImplicit false

theorem find?_eq_some_of_nodup {α β : Type} [BEq β] [LawfulBEq β] (key : α → β) {list : List α}
    (h : (list.map key).Nodup) {entry : α} (hmem : entry ∈ list) :
    list.find? (fun other => key other == key entry) = some entry := by
  induction list with
  | nil => cases hmem
  | cons first rest ih =>
    rw [List.map_cons, List.nodup_cons] at h
    rcases List.mem_cons.mp hmem with rfl | hrest
    · simp
    · have hne : key first ≠ key entry := fun heq => h.1 (heq ▸ List.mem_map_of_mem hrest)
      rw [List.find?_cons_of_neg (by simpa using hne)]
      exact ih h.2 hrest

namespace Language

/-- A language whose attribute starts and attribute values are told apart by page and token and lie
where they belong. -/
structure RegularAttributes (language : Language) : Prop where
  starts : (language.attributeStarts.map fun entry => (entry.page, entry.token)).Nodup
  startRange : ∀ entry ∈ language.attributeStarts,
    0x05 ≤ entry.token ∧ entry.token ≤ 0x3F ∨ 0x45 ≤ entry.token ∧ entry.token ≤ 0x7F
  values : (language.attributeValues.map fun entry => (entry.page, entry.token)).Nodup
  valueRange : ∀ entry ∈ language.attributeValues,
    0x85 ≤ entry.token ∧ entry.token ≤ 0xBF ∨ 0xC5 ≤ entry.token ∧ entry.token ≤ 0xFF

/-- A language whose pages have different numbers, and whose tokens are different on each page and
lie where tags, attribute starts and attribute values belong. Its number is not the one that
announces a name. -/
structure Regular (language : Language) : Prop extends RegularAttributes language where
  pages : (language.pages.map (·.page)).Nodup
  tags : ∀ codePage ∈ language.pages, (codePage.tags.map (·.token)).Nodup
  tagRange : ∀ codePage ∈ language.pages, ∀ tag ∈ codePage.tags,
    0x05 ≤ tag.token ∧ tag.token ≤ 0x3F
  publicId : language.publicId ≠ some 0

/-- A language whose pages have namespaces that are told apart. -/
def Distinct (language : Language) : Prop :=
  language.pages.Pairwise fun first second => Namespace.same first.uri second.uri = false

/-- A name that is a tag of some code page, which has a given namespace. -/
def HasTag (language : Language) (uri name : String) : Prop :=
  ∃ codePage ∈ language.pages, codePage.uri = uri ∧ ∃ tag ∈ codePage.tags, tag.name = name

/-- A name that is a tag of no code page. -/
def Unknown (language : Language) (name : String) : Prop :=
  ∀ codePage ∈ language.pages, ∀ tag ∈ codePage.tags, tag.name ≠ name

/-- A namespace that some code page has. -/
def HasPage (language : Language) (uri : String) : Prop :=
  ∃ codePage ∈ language.pages, codePage.uri = uri

/-- A name that is no tag where a namespace is in scope: the code page of the namespace does not
have it, or there is no namespace, and no code page has it. -/
def Lacks (language : Language) (name : String) : Option String → Prop
  | none => language.Unknown name
  | some uri => ¬ language.HasTag uri name

/-! ## Tags -/

section Tags
variable {language : Language}

theorem codePage?_eq_some {page : UInt8} {codePage : CodePage}
    (h : language.codePage? page = some codePage) :
    codePage ∈ language.pages ∧ codePage.page = page := by
  have hpage := List.find?_some h
  exact ⟨List.mem_of_find?_eq_some h, by simpa using hpage⟩

theorem tagToken?_eq_some {codePage : CodePage} {name : String} {token : UInt8}
    (h : codePage.tagToken? name = some token) : ⟨token, name⟩ ∈ codePage.tags := by
  unfold CodePage.tagToken? at h
  obtain ⟨⟨token', name'⟩, hentry, rfl⟩ := Option.map_eq_some_iff.mp h
  have hname : name' = name := by simpa using List.find?_some hentry
  exact hname ▸ List.mem_of_find?_eq_some hentry

theorem tagOnPage?_eq_some {name : String} {page : UInt8} {code : TagCode}
    (h : language.tagOnPage? name page = some code) :
    code.page = page ∧ ∃ codePage, language.codePage? page = some codePage ∧
      ⟨code.token, name⟩ ∈ codePage.tags := by
  unfold tagOnPage? at h
  obtain ⟨codePage, hpage, h⟩ := Option.bind_eq_some_iff.mp h
  obtain ⟨token, htoken, h⟩ := Option.bind_eq_some_iff.mp h
  cases h
  exact ⟨rfl, codePage, hpage, tagToken?_eq_some htoken⟩

/-- Two spellings of a namespace lead to one code page. -/
theorem pageOfUri?_of_same {uri uri' : String} (h : Namespace.same uri uri' = true) :
    language.pageOfUri? uri = language.pageOfUri? uri' := by
  have hkey : Namespace.key uri = Namespace.key uri' := beq_iff_eq.mp h
  simp only [pageOfUri?, Namespace.same, hkey]

/-- Whatever a namespace says, a tag is taken from some page. -/
theorem tagOnPage?_of_tagCode? {uri : Option String} {name : String} {current : UInt8}
    {code : TagCode} (h : language.tagCode? uri name current = some code) :
    ∃ page, language.tagOnPage? name page = some code := by
  unfold tagCode? at h
  split at h
  · exact ⟨_, h⟩
  · rcases Option.or_eq_some_iff.mp h with h | ⟨-, h⟩
    · exact ⟨_, h⟩
    · obtain ⟨page, -, h⟩ := List.exists_of_findSome?_eq_some h
      exact ⟨page, h⟩

theorem exists_of_tagCode? {uri : Option String} {name : String} {current : UInt8}
    {code : TagCode} (h : language.tagCode? uri name current = some code) :
    ∃ codePage, language.codePage? code.page = some codePage ∧
      ⟨code.token, name⟩ ∈ codePage.tags := by
  obtain ⟨page, hpage⟩ := tagOnPage?_of_tagCode? h
  obtain ⟨rfl, hentry⟩ := tagOnPage?_eq_some hpage
  exact hentry

theorem tagRange_of_tagCode? (regular : language.Regular) {uri : Option String} {name : String}
    {current : UInt8} {code : TagCode} (h : language.tagCode? uri name current = some code) :
    0x05 ≤ code.token ∧ code.token ≤ 0x3F := by
  obtain ⟨codePage, hpage, hmem⟩ := exists_of_tagCode? h
  exact regular.tagRange codePage (codePage?_eq_some hpage).1 _ hmem

/-- The token that is chosen for a tag stands for that tag. -/
theorem tagName?_of_tagCode? (regular : language.Regular) {uri : Option String} {name : String}
    {current : UInt8} {code : TagCode} (h : language.tagCode? uri name current = some code) :
    language.tagName? code.page code.token = some name := by
  obtain ⟨codePage, hpage, hmem⟩ := exists_of_tagCode? h
  have hfind := find?_eq_some_of_nodup (·.token)
    (regular.tags codePage (codePage?_eq_some hpage).1) hmem
  unfold tagName? CodePage.tagName?
  rw [hpage, Option.bind_some, hfind]
  rfl

theorem hasTag_of_tagName? {page token : UInt8} {name uri : String}
    (h : language.tagName? page token = some name) (huri : language.uri? page = some uri) :
    language.HasTag uri name := by
  obtain ⟨codePage, hpage, huri⟩ := Option.map_eq_some_iff.mp huri
  unfold tagName? CodePage.tagName? at h
  rw [hpage, Option.bind_some] at h
  obtain ⟨tag, htag, hname⟩ := Option.map_eq_some_iff.mp h
  exact ⟨codePage, (codePage?_eq_some hpage).1, huri, tag, List.mem_of_find?_eq_some htag, hname⟩

theorem tagToken?_isSome {codePage : CodePage} {tag : TagEntry} (h : tag ∈ codePage.tags) :
    ∃ token, codePage.tagToken? tag.name = some token := by
  unfold CodePage.tagToken?
  cases hfound : codePage.tags.find? (·.name == tag.name) with
  | some found => exact ⟨found.token, rfl⟩
  | none =>
    have hnone := List.find?_eq_none.mp hfound tag h
    simp at hnone

theorem nodup_keys (distinct : language.Distinct) :
    (language.pages.map fun codePage => Namespace.key codePage.uri).Nodup := by
  rw [List.Nodup, List.pairwise_map]
  refine distinct.imp fun hsame => ?_
  exact beq_eq_false_iff_ne.mp hsame

theorem pageOfUri?_of_mem (distinct : language.Distinct) {codePage : CodePage}
    (h : codePage ∈ language.pages) : language.pageOfUri? codePage.uri = some codePage.page := by
  have hfind : (language.pages.find? fun other =>
      Namespace.key other.uri == Namespace.key codePage.uri) = some codePage :=
    find?_eq_some_of_nodup (fun codePage : CodePage => Namespace.key codePage.uri)
      (nodup_keys distinct) h
  unfold pageOfUri? Namespace.same
  rw [hfind, Option.map_some]

/-- A tag with its namespace is found on the page of that namespace, whatever page is current. -/
theorem tagCode?_of_hasTag (regular : language.Regular) (distinct : language.Distinct)
    {uri name : String} (h : language.HasTag uri name) (current : UInt8) :
    ∃ code, language.tagCode? (some uri) name current = some code ∧
      language.uri? code.page = some uri := by
  obtain ⟨codePage, hmem, rfl, tag, htag, rfl⟩ := h
  have hpage : language.codePage? codePage.page = some codePage :=
    find?_eq_some_of_nodup CodePage.page regular.pages hmem
  obtain ⟨token, htoken⟩ := tagToken?_isSome htag
  refine ⟨⟨codePage.page, token⟩, ?_, ?_⟩
  · unfold tagCode?
    rw [Option.bind_some, pageOfUri?_of_mem distinct hmem]
    unfold tagOnPage?
    simp [hpage, htoken]
  · unfold uri?
    rw [hpage]
    rfl

theorem hasPage_of_hasTag {uri name : String} (h : language.HasTag uri name) :
    language.HasPage uri := by
  obtain ⟨codePage, hmem, huri, -⟩ := h
  exact ⟨codePage, hmem, huri⟩

/-- Namespaces of code pages are told apart if they are different at all. -/
theorem eq_of_same (distinct : language.Distinct) {first second : String}
    (h : language.HasPage first) (h' : language.HasPage second)
    (hsame : Namespace.same first second = true) : first = second := by
  obtain ⟨codePage, hmem, rfl⟩ := h
  obtain ⟨codePage', hmem', rfl⟩ := h'
  have hkey : Namespace.key codePage.uri = Namespace.key codePage'.uri := beq_iff_eq.mp hsame
  have hfind := find?_eq_some_of_nodup (fun codePage : CodePage => Namespace.key codePage.uri)
    (nodup_keys distinct) hmem
  rw [hkey, find?_eq_some_of_nodup (fun codePage : CodePage => Namespace.key codePage.uri)
    (nodup_keys distinct) hmem'] at hfind
  rw [Option.some.inj hfind]

theorem hasTag_of_tagCode? (regular : language.Regular) {uri : Option String} {name space : String}
    {current : UInt8} (h : ((language.tagCode? uri name current).bind fun code =>
      language.uri? code.page) = some space) : language.HasTag space name := by
  obtain ⟨code, hcode, huri⟩ := Option.bind_eq_some_iff.mp h
  exact hasTag_of_tagName? (tagName?_of_tagCode? regular hcode) huri

/-- A name that is no tag has no place, if no namespace is given. -/
theorem tagCode?_of_unknown {name : String} (h : language.Unknown name) (current : UInt8) :
    language.tagCode? none name current = none := by
  cases hcode : language.tagCode? none name current with
  | none => rfl
  | some code =>
    obtain ⟨codePage, hpage, hmem⟩ := exists_of_tagCode? hcode
    exact absurd rfl (h codePage (codePage?_eq_some hpage).1 _ hmem)

/-- Every tag has some place, if no namespace is given. -/
theorem unknown_of_tagCode? (regular : language.Regular) {name : String} {current : UInt8}
    (h : language.tagCode? none name current = none) : language.Unknown name := by
  rintro codePage hmem tag htag rfl
  have hpage : language.codePage? codePage.page = some codePage :=
    find?_eq_some_of_nodup CodePage.page regular.pages hmem
  obtain ⟨token, htoken⟩ := tagToken?_isSome htag
  have hplace : language.tagOnPage? tag.name codePage.page = some ⟨codePage.page, token⟩ := by
    simp [tagOnPage?, hpage, htoken]
  obtain ⟨hcurrent, hothers⟩ := Option.or_eq_none_iff.mp h
  by_cases hsame : codePage.page = current
  · rw [← hsame, hplace] at hcurrent
    cases hcurrent
  · have hlisted : codePage.page ∈ (language.pages.map (·.page)).filter (· != current) :=
      List.mem_filter.mpr ⟨List.mem_map_of_mem hmem, by simpa using hsame⟩
    have hnone := List.findSome?_eq_none_iff.mp hothers _ hlisted
    rw [hplace] at hnone
    cases hnone

/-- A name has no place where a namespace is in scope exactly if it is no tag there. -/
theorem tagCode?_eq_none_iff (regular : language.Regular) (distinct : language.Distinct)
    {scope : Option String} (hscope : ∀ space, scope = some space → language.HasPage space)
    {name : String} {current : UInt8} :
    language.tagCode? scope name current = none ↔ language.Lacks name scope := by
  cases scope with
  | none => exact ⟨unknown_of_tagCode? regular, fun h => tagCode?_of_unknown h current⟩
  | some space =>
    constructor
    · intro hnone htag
      obtain ⟨code, hcode, -⟩ := tagCode?_of_hasTag regular distinct htag current
      rw [hnone] at hcode
      cases hcode
    · intro hlacks
      obtain ⟨codePage, hmem, rfl⟩ := hscope _ rfl
      cases hcode : language.tagCode? (some codePage.uri) name current with
      | none => rfl
      | some code =>
        have hplace : language.tagOnPage? name codePage.page = some code := by
          rwa [tagCode?, Option.bind_some, pageOfUri?_of_mem distinct hmem] at hcode
        obtain ⟨-, found, hfound, htag⟩ := tagOnPage?_eq_some hplace
        have hpage : language.codePage? codePage.page = some codePage :=
          find?_eq_some_of_nodup CodePage.page regular.pages hmem
        cases hpage.symm.trans hfound
        exact absurd ⟨codePage, hmem, rfl, _, htag, rfl⟩ hlacks

end Tags

/-! ## Attributes -/

section Attributes
variable {language : Language}

theorem mem_of_foldl_better {current : UInt8} {list : List AttributeStart}
    {start : Option AttributeStart} {entry : AttributeStart}
    (h : list.foldl (AttributeStart.better current) start = some entry) :
    start = some entry ∨ entry ∈ list := by
  induction list generalizing start with
  | nil => exact .inl h
  | cons first rest ih =>
    rw [List.foldl_cons] at h
    rcases ih h with hbest | hmem
    · cases start with
      | none => exact .inr (List.mem_cons.mpr (.inl (Option.some.inj hbest).symm))
      | some best =>
        rw [AttributeStart.better] at hbest
        split at hbest
        · exact .inr (List.mem_cons.mpr (.inl (Option.some.inj hbest).symm))
        · exact .inl hbest
    · exact .inr (List.mem_cons_of_mem _ hmem)

theorem attributeStart?_eq_some {name value : String} {current : UInt8} {entry : AttributeStart}
    (h : language.attributeStart? name value current = some entry) :
    entry ∈ language.attributeStarts ∧ entry.covers name value := by
  rcases mem_of_foldl_better h with hnone | hmem
  · cases hnone
  · exact List.mem_filter.mp hmem

theorem append_remainder {entry : AttributeStart} {name value : String}
    (h : entry.covers name value) :
    entry.name = name ∧ entry.valueStart ++ entry.remainder value = value := by
  unfold AttributeStart.covers at h
  rw [Bool.and_eq_true, beq_iff_eq, List.isPrefixOf_iff_prefix] at h
  obtain ⟨hname, rest, hrest⟩ := h
  refine ⟨hname, ?_⟩
  apply String.toList_injective
  rw [AttributeStart.remainder, String.toList_append, String.toList_ofList, ← hrest, List.drop_left]

theorem attributeStartAt?_of_attributeStart? (regular : language.RegularAttributes)
    {name value : String} {current : UInt8} {entry : AttributeStart}
    (h : language.attributeStart? name value current = some entry) :
    language.attributeStartAt? entry.page entry.token = some entry := by
  have hfind := find?_eq_some_of_nodup (fun entry : AttributeStart => (entry.page, entry.token))
    regular.starts (attributeStart?_eq_some h).1
  exact hfind

theorem attributeValue?_eq_some {value : String} {current : UInt8} {entry : AttributeValue}
    (h : language.attributeValue? value current = some entry) :
    entry ∈ language.attributeValues ∧ entry.value = value := by
  unfold attributeValue? at h
  have hmem : entry ∈ language.attributeValues.filter (·.value == value) := by
    rcases Option.or_eq_some_iff.mp h with h | ⟨-, h⟩
    · exact List.mem_of_find?_eq_some h
    · exact List.mem_of_head? h
  obtain ⟨hmem, hvalue⟩ := List.mem_filter.mp hmem
  exact ⟨hmem, by simpa using hvalue⟩

theorem attributeValueAt?_of_attributeValue? (regular : language.RegularAttributes) {value : String}
    {current : UInt8} {entry : AttributeValue}
    (h : language.attributeValue? value current = some entry) :
    language.attributeValueAt? entry.page entry.token = some entry := by
  have hfind := find?_eq_some_of_nodup (fun entry : AttributeValue => (entry.page, entry.token))
    regular.values (attributeValue?_eq_some h).1
  exact hfind

end Attributes

end Language

/-! ## ActiveSync -/

theorem ActiveSync.language_regular : ActiveSync.language.Regular where
  pages := by decide +kernel
  tags := by decide +kernel
  tagRange := by decide +kernel
  starts := List.nodup_nil
  startRange := by simp [ActiveSync.language]
  values := List.nodup_nil
  valueRange := by simp [ActiveSync.language]
  publicId := by decide

theorem ActiveSync.language_distinct : ActiveSync.language.Distinct := by
  unfold Language.Distinct
  decide +kernel

theorem ActiveSync.nodup_tagNames :
    ∀ codePage ∈ ActiveSync.language.pages, (codePage.tags.map (·.name)).Nodup := by
  decide +kernel

end BinaryXml
