import BinaryXml.Proofs.Stream.Writable

/-! # When writing succeeds

* `Demand`: what a document asks of the string table and of counted frames.
* `elementDemands`: the demands of an element, in the order in which they are met.
* `Affords`: 32 bits are enough for all of them.
* `Writes`: when a step of the encoder succeeds, and what it does to the string table and to the
  code pages. `Writes.bind` puts two steps together.
* `writes_element`: an element is written exactly if it is nested no deeper than is allowed and its
  strings can be written, as long as its demands are afforded.
-/

namespace BinaryXml.Encoding

open Grammar

set_option autoImplicit false

/-! ## Demands -/

/-- A string that must stand in the table, or data that must be counted. -/
inductive Demand where
  | entry (text : String)
  | data (bytes : Bytes)
deriving DecidableEq

/-- The strings of a table after a demand was met. A string joins the table on its first use. -/
def Demand.meet (entries : List String) : Demand → List String
  | .entry text => if text ∈ entries then entries else entries ++ [text]
  | .data _ => entries

/-- Offsets into the table and the sizes of data all fit into 32 bits. -/
def Affords (entries : List String) (demands : List Demand) : Prop :=
  (TableBuilder.bytes ⟨demands.foldl Demand.meet entries⟩).length < TableBuilder.limit ∧
    ∀ bytes, Demand.data bytes ∈ demands → bytes.length < Frame.countLimit

def Demand.Fits : Demand → Prop
  | .entry _ => True
  | .data bytes => bytes.length < Frame.countLimit

instance (demand : Demand) : Decidable demand.Fits :=
  match demand with
  | .entry _ => isTrue trivial
  | .data bytes => inferInstanceAs (Decidable (bytes.length < Frame.countLimit))

theorem affords_iff {entries : List String} {demands : List Demand} : Affords entries demands ↔
    (TableBuilder.bytes ⟨demands.foldl Demand.meet entries⟩).length < TableBuilder.limit ∧
      ∀ demand ∈ demands, demand.Fits := by
  refine and_congr_right fun _ => ⟨fun h demand hmem => ?_, fun h bytes hmem => h _ hmem⟩
  cases demand with
  | entry text => trivial
  | data bytes => exact h bytes hmem

instance (entries : List String) (demands : List Demand) : Decidable (Affords entries demands) :=
  decidable_of_iff _ affords_iff.symm

section Definitions
variable (source : Context)

def textDemands (content : String) : List Demand :=
  if source.sharedTexts.contains content then [.entry content] else []

def nameDemands (name : String) : List Demand :=
  if source.literalsInTable then [.entry name] else []

/-- The demands of a value, with the code page of attributes that is current behind it. -/
def valueDemands (page : UInt8) (value : String) : List Demand × UInt8 :=
  if value.isEmpty then ([], page)
  else match source.language.attributeValue? value page with
    | some entry => ([], entry.page)
    | none => (textDemands source value, page)

def attributeDemands (page : UInt8) : Attribute → List Demand × UInt8
  | ⟨name, value⟩ =>
    match source.language.attributeStart? name value page with
    | some entry => valueDemands source entry.page (entry.remainder value)
    | none =>
      let rest := valueDemands source page value
      (nameDemands source name ++ rest.1, rest.2)

def listDemands (page : UInt8) : List Attribute → List Demand × UInt8
  | [] => ([], page)
  | first :: rest =>
    let demands := attributeDemands source page first
    let others := listDemands demands.2 rest
    (demands.1 ++ others.1, others.2)

def tagDemands (name : String) : Option TagCode → List Demand
  | some _ => []
  | none => nameDemands source name

/-- The data that is written instead of the nodes inside an element. -/
def innerData? (children : List Node) : Option TagCode → Option Bytes
  | some code =>
    if source.language.isOpaque code then dataOf? source.opaqueEncoding children else none
  | none => none

mutual

/-- The demands of an element, with the code pages that are current behind it. -/
def elementDemands (pages : Pages) : Element → List Demand × Pages
  | ⟨name, uri, attributes, children⟩ =>
    let code? := source.language.tagCode? uri name pages.tags
    let list := listDemands source pages.attributes attributes
    let inner : List Demand × Pages := match innerData? source children code? with
      | some data => ([.data data], ⟨pageAfter pages.tags code?, list.2⟩)
      | none => nodesDemands ⟨pageAfter pages.tags code?, list.2⟩ children
    (tagDemands source name code? ++ (list.1 ++ inner.1), inner.2)

/-- The demands of nodes. -/
def nodesDemands (pages : Pages) : List Node → List Demand × Pages
  | [] => ([], pages)
  | .element child :: rest =>
    let first := elementDemands pages child
    let others := nodesDemands first.2 rest
    (first.1 ++ others.1, others.2)
  | .text content :: rest =>
    let others := nodesDemands pages rest
    (textDemands source content ++ others.1, others.2)
  | .comment _ :: rest => nodesDemands pages rest

end

end Definitions

/-! ## Tables that grow -/

theorem meet_entry (entries : List String) (text : String) :
    Demand.meet entries (.entry text) =
      if text ∈ entries then entries else entries ++ [text] := rfl

theorem length_meet_le (entries : List String) (demand : Demand) :
    (TableBuilder.bytes ⟨entries⟩).length ≤
      (TableBuilder.bytes ⟨demand.meet entries⟩).length := by
  cases demand with
  | data bytes => exact Nat.le_refl _
  | entry text =>
    rw [meet_entry]
    split
    · exact Nat.le_refl _
    · rw [TableBuilder.bytes_append, List.length_append]
      exact Nat.le_add_right _ _

theorem length_foldl_meet_le (demands : List Demand) (entries : List String) :
    (TableBuilder.bytes ⟨entries⟩).length ≤
      (TableBuilder.bytes ⟨demands.foldl Demand.meet entries⟩).length := by
  induction demands generalizing entries with
  | nil => exact Nat.le_refl _
  | cons first rest ih => exact Nat.le_trans (length_meet_le entries first) (ih _)

theorem affords_append {entries : List String} {front back : List Demand}
    (h : Affords entries (front ++ back)) :
    Affords entries front ∧ Affords (front.foldl Demand.meet entries) back := by
  obtain ⟨htable, hdata⟩ := h
  rw [List.foldl_append] at htable
  refine ⟨⟨Nat.lt_of_le_of_lt (length_foldl_meet_le back _) htable, fun bytes hmem => ?_⟩,
    htable, fun bytes hmem => ?_⟩
  · exact hdata bytes (List.mem_append_left _ hmem)
  · exact hdata bytes (List.mem_append_right _ hmem)

theorem offsetFrom?_isSome {entry : String} (start : Nat) {entries : List String}
    (h : entry ∈ entries) : ∃ offset, TableBuilder.offsetFrom? entry start entries = some offset := by
  induction entries generalizing start with
  | nil => cases h
  | cons first rest ih =>
    rw [TableBuilder.offsetFrom?]
    split
    · exact ⟨_, rfl⟩
    · rename_i hne
      rcases List.mem_cons.mp h with heq | hrest
      · exact absurd heq.symm hne
      · exact ih _ hrest

/-- A string without zero characters joins a table as long as offsets reach its end. -/
theorem intern_succeeds {entry : String} {table : TableBuilder} (hclean : '\x00' ∉ entry.toList)
    (hafford : Affords table.entries [.entry entry]) :
    ∃ offset, TableBuilder.intern entry table =
      .ok offset ⟨Demand.meet table.entries (.entry entry)⟩ := by
  rw [meet_entry]
  unfold TableBuilder.intern
  by_cases hmem : entry ∈ table.entries
  · obtain ⟨offset, hoffset⟩ := offsetFrom?_isSome 0 hmem
    refine ⟨UInt32.ofNat offset, ?_⟩
    rw [if_pos hmem, TableBuilder.offset?, hoffset]
  · have hnone : table.offset? entry = none := by
      cases hoffset : table.offset? entry with
      | none => rfl
      | some offset =>
        obtain ⟨before, after, hentries, -⟩ := TableBuilder.offsetFrom?_eq_some hoffset
        rw [hentries] at hmem
        simp at hmem
    have hroom : table.bytes.length < TableBuilder.limit :=
      Nat.lt_of_le_of_lt (length_meet_le table.entries (.entry entry)) hafford.1
    refine ⟨UInt32.ofNat table.bytes.length, ?_⟩
    rw [if_neg hmem, hnone]
    dsimp only
    rw [if_neg (by simpa using hclean), if_pos hroom]

/-- Only a string without zero characters joins a table or stands there. -/
theorem intern_eq_ok_meet {entry : String} {table table' : TableBuilder} {offset : UInt32}
    (clean : TableBuilder.Clean table.entries)
    (h : TableBuilder.intern entry table = .ok offset table') :
    '\x00' ∉ entry.toList ∧ TableBuilder.Clean table'.entries ∧
      table'.entries = Demand.meet table.entries (.entry entry) := by
  rw [meet_entry]
  unfold TableBuilder.intern at h
  cases hoffset : table.offset? entry with
  | some found =>
    rw [hoffset] at h
    cases h
    obtain ⟨before, after, hentries, -⟩ := TableBuilder.offsetFrom?_eq_some hoffset
    have hmem : entry ∈ table.entries := by
      rw [hentries]
      exact List.mem_append_right _ List.mem_cons_self
    exact ⟨clean entry hmem, clean, (if_pos hmem).symm⟩
  | none =>
    have hnew : entry ∉ table.entries := fun hmem => by
      obtain ⟨found, hfound⟩ := offsetFrom?_isSome 0 hmem
      cases hoffset.symm.trans hfound
    rw [hoffset] at h
    dsimp only at h
    split at h
    · cases h
    · rename_i hzero
      split at h
      · cases h
        rw [if_neg hnew]
        have hentry : '\x00' ∉ entry.toList := by simpa using hzero
        refine ⟨hentry, fun other hmem => ?_, rfl⟩
        rcases List.mem_append.mp hmem with hold | hother
        · exact clean other hold
        · rwa [List.mem_singleton.mp hother]
      · cases h

/-! ## Code pages -/

section Pages
variable {source : Context}

@[simp] theorem valueDemands_page (page : UInt8) (value : String) :
    (valueDemands source page value).2 = pageAfterValue source.language page value := by
  unfold valueDemands pageAfterValue
  split
  · rfl
  · cases source.language.attributeValue? value page <;> rfl

@[simp] theorem attributeDemands_page (page : UInt8) (first : Attribute) :
    (attributeDemands source page first).2 = pageAfterAttribute source.language page first := by
  obtain ⟨name, value⟩ := first
  rw [attributeDemands, pageAfterAttribute]
  cases source.language.attributeStart? name value page <;> exact valueDemands_page _ _

@[simp] theorem listDemands_page (page : UInt8) (list : List Attribute) :
    (listDemands source page list).2 = pageAfterList source.language page list := by
  induction list generalizing page with
  | nil => rfl
  | cons first rest ih =>
    rw [pageAfterList, ← attributeDemands_page]
    exact ih _

theorem innerData?_eq_some {children : List Node} {code? : Option TagCode} {data : Bytes}
    (h : innerData? source children code? = some data) :
    children = [.text (source.opaqueEncoding.encode data)] := by
  cases code? with
  | none => cases h
  | some code =>
    rw [innerData?] at h
    split at h
    · exact dataOf?_eq_some h
    · cases h

theorem innerData?_nil (code? : Option TagCode) : innerData? source [] code? = none := by
  cases code? with
  | some code =>
    change (if source.language.isOpaque code then none else none) = none
    exact ite_self none
  | none => rfl

/-- The demands of what stands behind the attributes of an element. -/
def innerDemands (source : Context) (pages : Pages) (children : List Node)
    (code? : Option TagCode) : List Demand × Pages :=
  match innerData? source children code? with
  | some data => ([.data data], pages)
  | none => nodesDemands source pages children

theorem elementDemands_eq (pages : Pages) (name : String) (uri : Option String)
    (attributes : List Attribute) (children : List Node) :
    elementDemands source pages ⟨name, uri, attributes, children⟩ =
      let code? := source.language.tagCode? uri name pages.tags
      let list := listDemands source pages.attributes attributes
      let inner := innerDemands source ⟨pageAfter pages.tags code?, list.2⟩ children code?
      (tagDemands source name code? ++ (list.1 ++ inner.1), inner.2) := by
  rw [elementDemands]
  rfl

/-- Data takes the place of a text, behind which the pages are the same. -/
theorem innerDemands_pages {pages : Pages} {children : List Node} {code? : Option TagCode}
    (h : (nodesDemands source pages children).2 = pagesAfterAll source.language pages children) :
    (innerDemands source pages children code?).2 = pagesAfterAll source.language pages children := by
  unfold innerDemands
  cases hinner : innerData? source children code? with
  | none => exact h
  | some data =>
    rw [innerData?_eq_some hinner]
    rfl

mutual

@[simp] theorem elementDemands_pages : ∀ (root : Element) (pages : Pages),
    (elementDemands source pages root).2 = pagesAfter source.language pages root
  | ⟨_, _, _, children⟩, _ => by
    rw [elementDemands_eq, pagesAfter_eq]
    dsimp only
    rw [listDemands_page]
    exact innerDemands_pages (nodesDemands_pages children _)

@[simp] theorem nodesDemands_pages : ∀ (nodes : List Node) (pages : Pages),
    (nodesDemands source pages nodes).2 = pagesAfterAll source.language pages nodes
  | [], _ => rfl
  | .element child :: rest, pages => by
    rw [nodesDemands, pagesAfterAll_element, ← elementDemands_pages child pages]
    exact nodesDemands_pages rest _
  | .text content :: rest, pages => nodesDemands_pages rest pages
  | .comment content :: rest, pages => nodesDemands_pages rest pages

end

end Pages

/-! ## Steps that succeed -/

@[simp] theorem State.pages_tags (state : State) : state.pages.tags = state.tagPage := rfl

@[simp] theorem State.pages_attributes (state : State) :
    state.pages.attributes = state.attributePage := rfl

/-- With a clean table a step succeeds only if something can be written; it then meets its demands
and leaves given code pages. If its demands are afforded, it does succeed. -/
structure Writes {α : Type} (action : Encode α) (state : State) (demands : List Demand)
    (writable : Prop) (last : Pages) : Prop where
  sound : TableBuilder.Clean state.table.entries → ∀ {value state'},
    action state = .ok value state' → writable ∧ TableBuilder.Clean state'.table.entries ∧
      state'.table.entries = demands.foldl Demand.meet state.table.entries ∧ state'.pages = last
  complete : TableBuilder.Clean state.table.entries → writable →
    Affords state.table.entries demands → ∃ value state', action state = .ok value state'

section Steps
variable {source : Context} {state : State} {α β : Type} {front back : Prop}

theorem Writes.congr {action : Encode α} {demands : List Demand} {last : Pages}
    (h : Writes action state demands front last) (hiff : front ↔ back) :
    Writes action state demands back last :=
  ⟨fun clean _ _ hrun => (h.sound clean hrun).imp_left hiff.mp,
    fun clean hback hafford => h.complete clean (hiff.mpr hback) hafford⟩

theorem Writes.bind {first : Encode α} {next : α → Encode β} {demands demands' : List Demand}
    {middle last : Pages} (h : Writes first state demands front middle)
    (h' : ∀ value state', state'.pages = middle → Writes (next value) state' demands' back last) :
    Writes (first >>= next) state (demands ++ demands') (front ∧ back) last := by
  constructor
  · intro clean value state'' hrun
    obtain ⟨a, state', hfirst, hnext⟩ := bind_eq_ok_iff.mp hrun
    obtain ⟨hfront, clean', hentries, hpages⟩ := h.sound clean hfirst
    obtain ⟨hback, clean'', hentries', hpages'⟩ := (h' a state' hpages).sound clean' hnext
    refine ⟨⟨hfront, hback⟩, clean'', ?_, hpages'⟩
    rw [hentries', hentries, List.foldl_append]
  · rintro clean ⟨hfront, hback⟩ hafford
    obtain ⟨hafford1, hafford2⟩ := affords_append hafford
    obtain ⟨a, state', hfirst⟩ := h.complete clean hfront hafford1
    obtain ⟨-, clean', hentries, hpages⟩ := h.sound clean hfirst
    rw [← hentries] at hafford2
    obtain ⟨b, state'', hnext⟩ := (h' a state' hpages).complete clean' hback hafford2
    exact ⟨b, state'', bind_eq_ok_iff.mpr ⟨a, state', hfirst, hnext⟩⟩

/-- A step that is known to succeed and to leave the table alone. -/
theorem writes_of_eq_ok {action : Encode α} {value : α} {state' : State}
    (h : action state = .ok value state') (htable : state'.table = state.table) :
    Writes action state [] True state'.pages := by
  constructor
  · intro clean value' state'' hrun
    cases h.symm.trans hrun
    exact ⟨trivial, htable ▸ clean, by rw [htable]; rfl, rfl⟩
  · intro clean _ _
    exact ⟨value, state', h⟩

theorem writes_pure (a : α) : Writes (pure a) state [] True state.pages :=
  writes_of_eq_ok rfl rfl

theorem writes_throw (error : Error) {demands : List Demand} {last : Pages} (h : ¬ front) :
    Writes (throw error : Encode α) state demands front last := by
  constructor
  · rintro - value state' ⟨⟩
  · intro clean hfront
    exact absurd hfront h

/-- A step that only says something afterwards demands nothing more. -/
theorem Writes.map {first : Encode α} {demands : List Demand} {pages : Pages}
    (h : Writes first state demands front pages) (f : α → β) :
    Writes (first >>= fun a => pure (f a)) state demands front pages := by
  have hbind := h.bind fun a state' hpages => hpages ▸ writes_pure (f a)
  rw [List.append_nil] at hbind
  exact hbind.congr (and_iff_left trivial)

/-- A step that always succeeds and demands nothing comes before others. -/
theorem Writes.after {first : Encode α} {next : α → Encode β} {demands : List Demand}
    {middle last : Pages} (h : Writes first state [] True middle)
    (h' : ∀ value state', state'.pages = middle → Writes (next value) state' demands back last) :
    Writes (first >>= next) state demands back last :=
  (h.bind h').congr (and_iff_right trivial)

theorem Writes.afterOk {first : Encode α} {next : α → Encode β} {value : α} {state' : State}
    {demands : List Demand} {last : Pages} (h : first state = .ok value state')
    (htable : state'.table = state.table) (h' : Writes (next value) state' demands back last) :
    Writes (first >>= next) state demands back last := by
  constructor
  · intro clean b state'' hrun
    obtain ⟨a, middle, hfirst, hnext⟩ := bind_eq_ok_iff.mp hrun
    cases h.symm.trans hfirst
    rw [← htable]
    exact h'.sound (htable ▸ clean) hnext
  · intro clean hback hafford
    obtain ⟨b, state'', hnext⟩ := h'.complete (htable ▸ clean) hback (htable ▸ hafford)
    exact ⟨b, state'', bind_eq_ok_iff.mpr ⟨value, state', h, hnext⟩⟩

theorem writes_report (event : Event) : Writes (report event) state [] True state.pages := by
  have hrun : report event state = .ok () { state with events := state.events ++ [event] } := rfl
  exact (writes_of_eq_ok hrun rfl :)

theorem writes_counted (data : Bytes) :
    Writes (lift (Frame.counted? data)) state [.data data] True state.pages := by
  constructor
  · intro clean value state' hrun
    obtain ⟨-, rfl⟩ := lift_eq_ok_iff.mp hrun
    exact ⟨trivial, clean, rfl, rfl⟩
  · rintro - - ⟨-, hdata⟩
    have hsize := hdata data List.mem_cons_self
    exact ⟨_, state, lift_eq_ok_iff.mpr ⟨Frame.counted?_eq_ok_iff.mpr ⟨hsize, rfl⟩, rfl⟩⟩

theorem writes_terminated (content : String) :
    Writes (lift (Frame.terminated? content)) state [] ('\x00' ∉ content.toList) state.pages := by
  constructor
  · intro clean value state' hrun
    obtain ⟨hframe, rfl⟩ := lift_eq_ok_iff.mp hrun
    exact ⟨(Frame.terminated?_eq_ok_iff.mp hframe).1, clean, rfl, rfl⟩
  · intro clean hcontent _
    exact ⟨_, state, lift_eq_ok_iff.mpr ⟨Frame.terminated?_eq_ok_iff.mpr ⟨hcontent, rfl⟩, rfl⟩⟩

theorem writes_intern (entry : String) :
    Writes (intern entry) state [.entry entry] ('\x00' ∉ entry.toList) state.pages := by
  constructor
  · intro clean offset state' hrun
    unfold intern at hrun
    split at hrun
    · rename_i table hintern
      cases hrun
      obtain ⟨hentry, hclean, hentries⟩ := intern_eq_ok_meet clean hintern
      exact ⟨hentry, hclean, hentries, rfl⟩
    · cases hrun
  · intro clean hentry hafford
    obtain ⟨offset, hintern⟩ := intern_succeeds hentry hafford
    refine ⟨offset, { state with table := ⟨Demand.meet state.table.entries (.entry entry)⟩ }, ?_⟩
    unfold intern
    rw [hintern]

theorem writes_text (content : String) : Writes (text source content) state
    (textDemands source content) ('\x00' ∉ content.toList) state.pages := by
  unfold text textDemands
  split
  · exact (writes_intern content).map _
  · exact (writes_terminated content).map _

theorem writes_literalName (name : String) : Writes (literalName source name) state
    (nameDemands source name) ('\x00' ∉ name.toList) state.pages := by
  unfold literalName nameDemands
  split
  · exact (writes_intern name).map _
  · exact (writes_terminated name).map _

theorem writes_switchTagPage (page : UInt8) :
    Writes (switchTagPage page) state [] True ⟨page, state.attributePage⟩ := by
  have hrun := switchTagPage_eq page state
  split at hrun
  · rename_i hpage
    rw [hpage]
    exact writes_of_eq_ok (hpage ▸ hrun) rfl
  · exact writes_of_eq_ok hrun rfl

theorem writes_switchAttributePage (page : UInt8) :
    Writes (switchAttributePage page) state [] True ⟨state.tagPage, page⟩ := by
  have hrun := switchAttributePage_eq page state
  split at hrun
  · rename_i hpage
    rw [hpage]
    exact writes_of_eq_ok (hpage ▸ hrun) rfl
  · exact writes_of_eq_ok hrun rfl

end Steps

/-! ## Attributes -/

section Attributes
variable {source : Context} {state : State} {pages : Pages}

theorem writes_attributeValue (value : String) (hpages : state.pages = pages) :
    Writes (attributeValue source value) state (valueDemands source pages.attributes value).1
      (ValueWritable source.language pages.attributes value)
      ⟨pages.tags, pageAfterValue source.language pages.attributes value⟩ := by
  subst hpages
  rw [attributeValue_eq, valueDemands, pageAfterValue]
  split
  · rename_i hempty
    refine (writes_pure []).congr (iff_of_true trivial fun _ => ?_)
    rw [String.isEmpty_iff.mp hempty]
    decide
  · refine Writes.afterOk rfl rfl ?_
    unfold ValueWritable
    simp only [State.pages_attributes, State.pages_tags]
    cases source.language.attributeValue? value state.attributePage with
    | some entry =>
      exact ((writes_switchAttributePage entry.page).map _).congr
        (iff_of_true trivial fun hnone => absurd hnone (Option.some_ne_none entry))
    | none => exact ((writes_text value).map _).congr ⟨fun h _ => h, fun h => h rfl⟩

theorem writes_singleAttribute (first : Attribute) (hpages : state.pages = pages) :
    Writes (singleAttribute source first) state (attributeDemands source pages.attributes first).1
      (AttributeWritable source.language pages.attributes first)
      ⟨pages.tags, pageAfterAttribute source.language pages.attributes first⟩ := by
  obtain ⟨name, value⟩ := first
  subst hpages
  rw [singleAttribute_eq, attributeDemands, AttributeWritable, pageAfterAttribute]
  refine Writes.afterOk rfl rfl ?_
  simp only [State.pages_attributes, State.pages_tags]
  cases source.language.attributeStart? name value state.attributePage with
  | some entry =>
    refine (writes_switchAttributePage entry.page).after fun switch state1 hpages => ?_
    exact (writes_attributeValue (entry.remainder value) hpages).map _
  | none =>
    refine (writes_report _).after fun _ state1 hpages => ?_
    refine (writes_literalName name).bind fun literal state2 hpages' => ?_
    exact (writes_attributeValue value (hpages'.trans hpages)).map _

theorem writes_eachAttribute (list : List Attribute) (hpages : state.pages = pages) :
    Writes (eachAttribute source list) state (listDemands source pages.attributes list).1
      (ListWritable source.language pages.attributes list)
      ⟨pages.tags, pageAfterList source.language pages.attributes list⟩ := by
  induction list generalizing state pages with
  | nil =>
    subst hpages
    exact writes_pure []
  | cons first rest ih =>
    rw [listDemands, attributeDemands_page]
    refine (writes_singleAttribute first hpages).bind fun tokens state1 hpages1 => ?_
    exact (ih hpages1).map _

theorem writes_attributes (list : List Attribute) (hpages : state.pages = pages) :
    Writes (attributes source list) state (listDemands source pages.attributes list).1
      (ListWritable source.language pages.attributes list)
      ⟨pages.tags, pageAfterList source.language pages.attributes list⟩ := by
  unfold attributes
  split
  · rename_i hempty
    rw [List.isEmpty_iff.mp hempty]
    subst hpages
    exact writes_pure []
  · exact (writes_eachAttribute list hpages).map _

end Attributes

/-! ## Elements -/

section Elements
variable {source : Context}

theorem writes_tag {state : State} (name : String) (uri : Option String) (flags : UInt8)
    (code? : Option TagCode) :
    Writes (tag source name uri flags code?) state (tagDemands source name code?)
      (code? = none → '\x00' ∉ name.toList) ⟨pageAfter state.tagPage code?, state.attributePage⟩ := by
  cases code? with
  | some code =>
    exact ((writes_switchTagPage code.page).map _).congr
      (iff_of_true trivial fun hnone => absurd hnone (Option.some_ne_none code))
  | none =>
    refine Writes.congr ?_ ⟨fun h _ => h, fun h => h rfl⟩
    refine (writes_report _).after fun _ state1 hpages => ?_
    have hname : Writes (literalName source name) state1 (nameDemands source name)
        ('\x00' ∉ name.toList) state1.pages := writes_literalName name
    rw [hpages] at hname
    exact hname.map _

theorem opaqueData?_eq_ok (source : Context) (state : State) (name : String) (children : List Node)
    (code? : Option TagCode) : ∃ state', (match code? with
        | some code => opaqueData? source name children code
        | none => pure none : Encode (Option Bytes)) state = .ok (innerData? source children code?) state' ∧
      state'.table = state.table ∧ state'.pages = state.pages := by
  cases code? with
  | some code =>
    dsimp only
    rw [opaqueData?_eq, innerData?]
    split
    · refine ⟨_, rfl, ?_, ?_⟩ <;> split <;> rfl
    · exact ⟨_, rfl, rfl, rfl⟩
  | none => exact ⟨state, rfl, rfl, rfl⟩

/-- The text that data takes the place of can be written, too. -/
theorem writes_behind {depth : Nat} {state : State} {pages : Pages} {name : String}
    {children : List Node} {code? : Option TagCode} (hdepth : depth ≤ source.maxDepth + 1)
    (hpages : state.pages = pages)
    (hcontent : ∀ {state : State}, state.pages = pages → Writes (content source depth children) state
      (nodesDemands source pages children).1
      (Node.levelsAll children + depth ≤ source.maxDepth + 1 ∧
        WritableAll source.language pages children)
      (pagesAfterAll source.language pages children)) :
    Writes (behind source depth name children code?) state
      (innerDemands source pages children code?).1
      (Node.levelsAll children + depth ≤ source.maxDepth + 1 ∧
        WritableAll source.language pages children)
      (pagesAfterAll source.language pages children) := by
  unfold behind innerDemands
  split
  · rename_i hempty
    rw [List.isEmpty_iff.mp hempty, innerData?_nil]
    subst hpages
    refine (writes_pure []).congr ?_
    simpa [Node.levelsAll, WritableAll] using hdepth
  · obtain ⟨state1, hdata, htable, hsame⟩ := opaqueData?_eq_ok source state name children code?
    refine Writes.afterOk hdata htable ?_
    cases hinner : innerData? source children code? with
    -- The only child is a text then, which is never too deep and has no zero character.
    | some data =>
      rw [innerData?_eq_some hinner, ← hpages, ← hsame]
      refine ((writes_counted data).map _).congr ?_
      simpa [Node.levelsAll, WritableAll] using
        ⟨hdepth, OpaqueEncoding.zero_notMem_encode source.opaqueEncoding data⟩
    | none => exact (hcontent (hsame.trans hpages)).map _

mutual

/-- An element is written if it is nested no deeper than is allowed and its strings can be
written. -/
theorem writes_element (depth : Nat) : ∀ (root : Element) {state : State} {pages : Pages},
    state.pages = pages → Writes (element source depth root) state
      (elementDemands source pages root).1
      (root.levels + depth ≤ source.maxDepth + 1 ∧ Writable source.language pages root)
      (pagesAfter source.language pages root)
  | ⟨name, uri, list, children⟩, state, pages, hpages => by
    rw [element_eq, Element.levels_mk]
    split
    -- An element has a level of its own, so none fits here.
    · exact writes_throw _ fun h => by omega
    · subst hpages
      rw [elementDemands_eq, Writable, pagesAfter_eq]
      refine Writes.afterOk rfl rfl ?_
      simp only [listDemands_page]
      refine Writes.congr ((writes_tag _ _ _ _).bind fun start state1 hpages1 =>
        (writes_attributes list hpages1).bind fun attributes state2 hpages2 =>
          (writes_behind (by omega) hpages2 (writes_content (depth + 1) (by omega) children)).map _) ?_
      constructor
      · rintro ⟨hname, hlist, hlevels, hchildren⟩
        exact ⟨by omega, hname, hlist, hchildren⟩
      · rintro ⟨hlevels, hname, hlist, hchildren⟩
        exact ⟨hname, hlist, by omega, hchildren⟩

theorem writes_content (depth : Nat) (hdepth : depth ≤ source.maxDepth + 1) :
    ∀ (children : List Node) {state : State} {pages : Pages}, state.pages = pages →
      Writes (content source depth children) state (nodesDemands source pages children).1
        (Node.levelsAll children + depth ≤ source.maxDepth + 1 ∧
          WritableAll source.language pages children)
        (pagesAfterAll source.language pages children)
  | [], state, pages, hpages => by
    subst hpages
    refine (writes_pure []).congr ?_
    simpa [Node.levelsAll, WritableAll] using hdepth
  | .element child :: rest, state, pages, hpages => by
    rw [nodesDemands, pagesAfterAll_element, writableAll_element_iff, Node.levelsAll_element,
      ← elementDemands_pages child pages]
    refine Writes.congr ((writes_element depth child hpages).bind fun first state1 hpages1 =>
      (writes_content depth hdepth rest (hpages1.trans (elementDemands_pages child pages).symm)).map _) ?_
    constructor
    · rintro ⟨⟨hfirst, hchild⟩, hlevels, hrest⟩
      exact ⟨by omega, hchild, hrest⟩
    · rintro ⟨hlevels, hchild, hrest⟩
      exact ⟨⟨by omega, hchild⟩, by omega, hrest⟩
  | .text data :: rest, state, pages, hpages => by
    rw [nodesDemands, writableAll_text_iff, Node.levelsAll]
    refine Writes.congr ((writes_text data).bind fun first state1 hpages1 =>
      (writes_content depth hdepth rest (hpages1.trans hpages)).map _) ?_
    exact and_left_comm
  | .comment _ :: rest, state, pages, hpages => by
    rw [nodesDemands, writableAll_comment_iff, Node.levelsAll]
    exact writes_content depth hdepth rest hpages

end

end Elements

end BinaryXml.Encoding
