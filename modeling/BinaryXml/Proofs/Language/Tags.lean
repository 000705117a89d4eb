import Mathlib.Data.List.Nodup
import BinaryXml.Proofs.Language.Lookup

/-! # Where a tag is found

* `IsFirst`: a member of a list with a property that none in front of it has.
* `Language.Names`: the code page that a namespace names, and `Language.Searched`: the code pages
  that are searched for a tag.
* `Language.TagPlace`: the place of a tag, said without a search.
* `Language.tagLookups_invert`: a tag is found at its place, and there is none only if no page that
  is searched has it. A token leads to a tag that leads back to the token.
-/

namespace BinaryXml

set_option autoImplicit false

/-! ## First members -/

/-- A member of a list has a property, and none in front of it has. -/
def IsFirst {α : Type} (property : α → Prop) (list : List α) (a : α) : Prop :=
  ∃ before after, list = before ++ a :: after ∧ property a ∧ ∀ b ∈ before, ¬ property b

section First
variable {α β : Type} {property : α → Prop} {list : List α} {a : α}

theorem IsFirst.mem (h : IsFirst property list a) : a ∈ list := by
  obtain ⟨before, after, rfl, -⟩ := h
  exact List.mem_append_right _ List.mem_cons_self

theorem find?_eq_some_iff_isFirst {test : α → Bool} :
    list.find? test = some a ↔ IsFirst (fun b => test b = true) list a := by
  rw [List.find?_eq_some_iff_append]
  constructor
  · rintro ⟨ha, before, after, hlist, hbefore⟩
    exact ⟨before, after, hlist, ha, fun b hb => by simpa using hbefore b hb⟩
  · rintro ⟨before, after, hlist, ha, hbefore⟩
    exact ⟨ha, before, after, hlist, fun b hb => by simpa using hbefore b hb⟩

theorem exists_isFirst (h : ∃ a ∈ list, property a) : ∃ a, IsFirst property list a := by
  induction list with
  | nil =>
    obtain ⟨a, hmem, -⟩ := h
    cases hmem
  | cons first rest ih =>
    by_cases hfirst : property first
    · exact ⟨first, [], rest, rfl, hfirst, List.forall_mem_nil _⟩
    · obtain ⟨a, hmem, ha⟩ := h
      have hrest : a ∈ rest := by
        rcases List.mem_cons.mp hmem with rfl | hrest
        · exact absurd ha hfirst
        · exact hrest
      obtain ⟨b, before, after, rfl, hb, hbefore⟩ := ih ⟨a, hrest, ha⟩
      exact ⟨b, first :: before, after, rfl, hb, List.forall_mem_cons.mpr ⟨hfirst, hbefore⟩⟩

/-- A search that finds something exactly in members with a property stops at the first one. -/
theorem findSome?_of_isFirst {search : α → Option β} (h : IsFirst property list a)
    (hsearch : ∀ b ∈ list, search b = none ↔ ¬ property b) : list.findSome? search = search a := by
  obtain ⟨before, after, rfl, ha, hbefore⟩ := h
  have hnone : before.findSome? search = none := List.findSome?_eq_none_iff.mpr fun b hb =>
    (hsearch b (List.mem_append_left _ hb)).mpr (hbefore b hb)
  rw [List.findSome?_append, hnone, Option.none_or, List.findSome?_cons]
  cases hfound : search a with
  | some found => rfl
  | none =>
    exact absurd ha ((hsearch a (List.mem_append_right _ List.mem_cons_self)).mp hfound)

/-- Members in which nothing is found can be left out of a search. -/
theorem findSome?_filter_ne [BEq α] [LawfulBEq α] {search : α → Option β} (h : search a = none)
    (list : List α) : (list.filter (· != a)).findSome? search = list.findSome? search := by
  induction list with
  | nil => rfl
  | cons first rest ih =>
    by_cases hfirst : first = a
    · rw [hfirst, List.filter_cons_of_neg (by simp), List.findSome?_cons, h, ih]
    · rw [List.filter_cons_of_pos (by simpa using hfirst), List.findSome?_cons, List.findSome?_cons,
        ih]

end First

/-! ## Places of tags -/

/-- A code page has a tag. -/
def CodePage.Has (codePage : CodePage) (name : String) : Prop :=
  ∃ tag ∈ codePage.tags, tag.name = name

namespace Language

/-- The code page that a namespace names, the first one if there are several. -/
def Names (language : Language) (uri : Option String) (codePage : CodePage) : Prop :=
  ∃ space, uri = some space ∧
    IsFirst (fun codePage => Namespace.same codePage.uri space = true) language.pages codePage

/-- The code pages that are searched: only the one that the namespace names, or else all. -/
def Searched (language : Language) (uri : Option String) (codePage : CodePage) : Prop :=
  codePage ∈ language.pages ∧ ∀ named, language.Names uri named → codePage = named

/-- The place that is chosen for a tag. -/
structure TagPlace (language : Language) (uri : Option String) (name : String) (current : UInt8)
    (code : TagCode) : Prop where
  /-- The token of the place stands for the tag. -/
  tagName : language.tagName? code.page code.token = some name
  /-- It is on the code page that the namespace names. -/
  onNamed : ∀ codePage, language.Names uri codePage → code.page = codePage.page
  /-- Without such a page it is on the current page, if that one has the tag. -/
  onCurrent : (∀ named, ¬ language.Names uri named) → ∀ codePage ∈ language.pages,
    codePage.page = current → codePage.Has name → code.page = current
  /-- Otherwise it is on the first page that has the tag. -/
  onFirst : (∀ named, ¬ language.Names uri named) →
    (∀ codePage ∈ language.pages, codePage.page = current → ¬ codePage.Has name) →
      ∃ codePage, IsFirst (·.Has name) language.pages codePage ∧ code.page = codePage.page

section Places
variable {language : Language} {uri : Option String} {name : String} {current : UInt8}
  {codePage : CodePage} {code : TagCode}

theorem bind_pageOfUri?_of_names (h : language.Names uri codePage) :
    uri.bind language.pageOfUri? = some codePage.page := by
  obtain ⟨space, rfl, hfirst⟩ := h
  rw [Option.bind_some, pageOfUri?, find?_eq_some_iff_isFirst.mpr hfirst, Option.map_some]

theorem bind_pageOfUri?_of_unnamed (h : ∀ named, ¬ language.Names uri named) :
    uri.bind language.pageOfUri? = none := by
  cases uri with
  | none => rfl
  | some space =>
    rw [Option.bind_some, pageOfUri?, Option.map_eq_none_iff]
    cases hfound : language.pages.find? fun codePage => Namespace.same codePage.uri space with
    | none => rfl
    | some named => exact absurd ⟨space, rfl, find?_eq_some_iff_isFirst.mp hfound⟩ (h named)

theorem tagOnPage?_eq_none_iff (pages : (language.pages.map (·.page)).Nodup)
    (hmem : codePage ∈ language.pages) :
    language.tagOnPage? name codePage.page = none ↔ ¬ codePage.Has name := by
  have hpage : language.codePage? codePage.page = some codePage :=
    find?_eq_some_of_nodup CodePage.page pages hmem
  constructor
  · rintro hnone ⟨tag, htag, rfl⟩
    obtain ⟨token, htoken⟩ := tagToken?_isSome htag
    simp [tagOnPage?, hpage, htoken] at hnone
  · intro hlacks
    cases hplace : language.tagOnPage? name codePage.page with
    | none => rfl
    | some code =>
      obtain ⟨-, found, hfound, htag⟩ := tagOnPage?_eq_some hplace
      cases hpage.symm.trans hfound
      exact absurd ⟨_, htag, rfl⟩ hlacks

theorem tagOnPage?_of_lacking (h : ∀ codePage ∈ language.pages, codePage.page = current →
    ¬ codePage.Has name) : language.tagOnPage? name current = none := by
  cases hplace : language.tagOnPage? name current with
  | none => rfl
  | some code =>
    obtain ⟨-, codePage, hpage, htag⟩ := tagOnPage?_eq_some hplace
    obtain ⟨hmem, hcurrent⟩ := codePage?_eq_some hpage
    exact absurd ⟨_, htag, rfl⟩ (h codePage hmem hcurrent)

theorem tagCode?_of_names (h : language.Names uri codePage) (name : String) (current : UInt8) :
    language.tagCode? uri name current = language.tagOnPage? name codePage.page := by
  rw [tagCode?, bind_pageOfUri?_of_names h]

/-- Without a page that is named, the current page is searched and then all pages. -/
theorem tagCode?_of_unnamed (h : ∀ named, ¬ language.Names uri named) (name : String)
    (current : UInt8) : language.tagCode? uri name current = (language.tagOnPage? name current).or
      (language.pages.findSome? fun codePage => language.tagOnPage? name codePage.page) := by
  rw [tagCode?, bind_pageOfUri?_of_unnamed h]
  cases hplace : language.tagOnPage? name current with
  | some code => rfl
  | none =>
    dsimp only
    rw [findSome?_filter_ne hplace, List.findSome?_map]
    rfl

theorem tagPlace_of_tagCode? (pages : (language.pages.map (·.page)).Nodup)
    (tokens : ∀ codePage ∈ language.pages, (codePage.tags.map (·.token)).Nodup)
    (h : language.tagCode? uri name current = some code) :
    language.TagPlace uri name current code := by
  constructor
  · obtain ⟨codePage, hpage, hmem⟩ := exists_of_tagCode? h
    have hfind := find?_eq_some_of_nodup TagEntry.token
      (tokens codePage (codePage?_eq_some hpage).1) hmem
    rw [tagName?, hpage, Option.bind_some, CodePage.tagName?, hfind, Option.map_some]
  · intro codePage hnames
    rw [tagCode?_of_names hnames] at h
    exact (tagOnPage?_eq_some h).1
  · rintro hunnamed codePage hmem rfl hhas
    rw [tagCode?_of_unnamed hunnamed] at h
    rcases Option.or_eq_some_iff.mp h with hplace | ⟨hnone, -⟩
    · exact (tagOnPage?_eq_some hplace).1
    · exact absurd hhas ((tagOnPage?_eq_none_iff pages hmem).mp hnone)
  · intro hunnamed hlacks
    rw [tagCode?_of_unnamed hunnamed, tagOnPage?_of_lacking hlacks, Option.none_or] at h
    obtain ⟨found, hfound, hplace⟩ := List.exists_of_findSome?_eq_some h
    have hsome : ∃ codePage ∈ language.pages, codePage.Has name := by
      refine ⟨found, hfound, ?_⟩
      by_contra hnot
      rw [(tagOnPage?_eq_none_iff pages hfound).mpr hnot] at hplace
      cases hplace
    obtain ⟨first, hfirst⟩ := exists_isFirst hsome
    rw [findSome?_of_isFirst hfirst fun _ hmem => tagOnPage?_eq_none_iff pages hmem] at h
    exact ⟨first, hfirst, (tagOnPage?_eq_some h).1⟩

theorem tagCode?_eq_none_iff_searched (pages : (language.pages.map (·.page)).Nodup) :
    language.tagCode? uri name current = none ↔
      ∀ codePage, language.Searched uri codePage → ¬ codePage.Has name := by
  by_cases hnamed : ∃ named, language.Names uri named
  · obtain ⟨named, hnames⟩ := hnamed
    have hmem : named ∈ language.pages := by
      obtain ⟨space, -, hfirst⟩ := hnames
      exact hfirst.mem
    have hpage {other : CodePage} (hother : language.Names uri other) : named = other := by
      have hsame := (bind_pageOfUri?_of_names hnames).symm.trans (bind_pageOfUri?_of_names hother)
      obtain ⟨_, -, hfirst⟩ := hother
      exact List.inj_on_of_nodup_map pages hmem hfirst.mem (Option.some.inj hsame)
    rw [tagCode?_of_names hnames, tagOnPage?_eq_none_iff pages hmem]
    constructor
    · rintro hlacks codePage ⟨-, honly⟩
      rwa [honly named hnames]
    · intro h
      exact h named ⟨hmem, fun _ hother => hpage hother⟩
  · have hunnamed := not_exists.mp hnamed
    rw [tagCode?_of_unnamed hunnamed, Option.or_eq_none_iff, List.findSome?_eq_none_iff]
    constructor
    · rintro ⟨-, hnone⟩ codePage ⟨hmem, -⟩
      exact (tagOnPage?_eq_none_iff pages hmem).mp (hnone codePage hmem)
    · intro h
      have hlacks {codePage : CodePage} (hmem : codePage ∈ language.pages) : ¬ codePage.Has name :=
        h codePage ⟨hmem, fun named hnames => absurd hnames (hunnamed named)⟩
      exact ⟨tagOnPage?_of_lacking fun _ hmem _ => hlacks hmem,
        fun _ hmem => (tagOnPage?_eq_none_iff pages hmem).mpr (hlacks hmem)⟩

/-- The tag that a token stands for leads back to the token, with the namespace of its page and
whatever page is current. -/
theorem tagCode?_of_tagName? (distinct : language.Distinct)
    (names : ∀ codePage ∈ language.pages, (codePage.tags.map (·.name)).Nodup) {page token : UInt8}
    (h : language.tagName? page token = some name) (current : UInt8) :
    language.tagCode? (language.uri? page) name current = some ⟨page, token⟩ := by
  obtain ⟨codePage, hpage, hname⟩ := Option.bind_eq_some_iff.mp h
  obtain ⟨hmem, rfl⟩ := codePage?_eq_some hpage
  obtain ⟨tag, htag, rfl⟩ := Option.map_eq_some_iff.mp hname
  have htoken : tag.token = token := by simpa using List.find?_some htag
  have hfind := find?_eq_some_of_nodup TagEntry.name (names codePage hmem)
    (List.mem_of_find?_eq_some htag)
  rw [uri?, hpage, Option.map_some, tagCode?, Option.bind_some, pageOfUri?_of_mem distinct hmem]
  simp [tagOnPage?, hpage, CodePage.tagToken?, hfind, htoken]

/-- In a language whose pages and tokens are told apart, a tag is found at its place, and it is not
found exactly if no page that is searched has it. If namespaces and names are told apart as well,
the tag of a token leads back to the token. -/
theorem tagLookups_invert (language : Language) (pages : (language.pages.map (·.page)).Nodup)
    (tokens : ∀ codePage ∈ language.pages, (codePage.tags.map (·.token)).Nodup) :
    (∀ uri name current code, language.tagCode? uri name current = some code →
      language.TagPlace uri name current code) ∧
    (∀ uri name current, language.tagCode? uri name current = none ↔
      ∀ codePage, language.Searched uri codePage → ¬ codePage.Has name) ∧
    (language.Distinct → (∀ codePage ∈ language.pages, (codePage.tags.map (·.name)).Nodup) →
      ∀ page token name, language.tagName? page token = some name → ∀ current,
        language.tagCode? (language.uri? page) name current = some ⟨page, token⟩) :=
  ⟨fun _ _ _ _ h => tagPlace_of_tagCode? pages tokens h,
    fun _ _ _ => tagCode?_eq_none_iff_searched pages,
    fun distinct names _ _ _ h current => tagCode?_of_tagName? distinct names h current⟩

end Places

end Language

/-- `Type` is a tag of six code pages, of which the one for mail is the first. -/
theorem ActiveSync.tagLookups_invert_type :
    let language := ActiveSync.language
    (language.TagPlace (some "airsyncbase") "Type" 2 ⟨17, 6⟩ ∧
      language.TagPlace (some "Other:") "Type" 17 ⟨17, 6⟩ ∧
      language.TagPlace none "Type" 0 ⟨2, 41⟩) ∧
    (∀ codePage, language.Searched (some "AirSync") codePage → ¬ codePage.Has "Type") ∧
    language.tagName? 17 6 = some "Type" ∧
      language.tagCode? (language.uri? 17) "Type" 2 = some ⟨17, 6⟩ := by
  intro language
  obtain ⟨hplace, hnone, hback⟩ := Language.tagLookups_invert language
    ActiveSync.language_regular.pages ActiveSync.language_regular.tags
  have hname : language.tagName? 17 6 = some "Type" := by decide +kernel
  have hnamed : language.tagCode? (some "airsyncbase") "Type" 2 = some ⟨17, 6⟩ := by decide +kernel
  have hcurrent : language.tagCode? (some "Other:") "Type" 17 = some ⟨17, 6⟩ := by decide +kernel
  have hfirst : language.tagCode? none "Type" 0 = some ⟨2, 41⟩ := by decide +kernel
  have hlacks : language.tagCode? (some "AirSync") "Type" 17 = none := by decide +kernel
  exact ⟨⟨hplace _ _ _ _ hnamed, hplace _ _ _ _ hcurrent, hplace _ _ _ _ hfirst⟩,
    (hnone _ _ 17).mp hlacks, hname,
    hback ActiveSync.language_distinct ActiveSync.nodup_tagNames 17 6 "Type" hname 2⟩

end BinaryXml
