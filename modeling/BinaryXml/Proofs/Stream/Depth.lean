import BinaryXml.Proofs.Stream.Settled
import BinaryXml.Proofs.Stream.Truncation

/-! # How deep a stream may be nested

* `Limited limit fits deep shallow`: the second step does what the first one does, unless it fails
  for the depth, which it does for no value that fits.
* `encodeDocument_of_limit` and `decodeDocument_of_limit`: with another depth there is the same
  result, or one is refused for its depth and nothing else.
* `encodeDocument_ne_tooDeep`: the writer refuses no document for its depth that is not too deep.
-/

namespace BinaryXml

set_option autoImplicit false

/-! ## Steps with another limit -/

/-- Where the first step succeeds the second one does the same, or it fails for the depth. It only
fails if the value does not fit. -/
def Limited {σ α : Type} (limit : Nat) (fits : α → Prop) (deep shallow : EStateM Error σ α) : Prop :=
  ∀ ⦃state value last⦄, deep state = .ok value last → shallow state = .ok value last ∨
    ¬ fits value ∧ ∃ last', shallow state = .error (.tooDeep limit) last'

section Limited
variable {σ α β : Type} {limit : Nat} {fits : α → Prop} {fits' : β → Prop}

theorem Limited.refl (step : EStateM Error σ α) : Limited limit fits step step :=
  fun _ _ _ h => .inl h

theorem Limited.bind {first first' : EStateM Error σ α} {next next' : α → EStateM Error σ β}
    (h : Limited limit fits first first') (h' : ∀ a, Limited limit fits' (next a) (next' a))
    (hfits : ∀ {a middle value last}, next a middle = .ok value last → fits' value → fits a) :
    Limited limit fits' (first >>= next) (first' >>= next') := by
  intro state value last hrun
  obtain ⟨a, middle, hfirst, hnext⟩ := bind_eq_ok_iff.mp hrun
  change EStateM.bind first' next' state = _ ∨ _ ∧ ∃ _, EStateM.bind first' next' state = _
  unfold EStateM.bind
  rcases h hfirst with hsame | ⟨hunfit, last', hdeep⟩
  · simp only [hsame]
    exact h' a hnext
  · simp only [hdeep]
    exact .inr ⟨fun hvalue => hunfit (hfits hnext hvalue), last', rfl⟩

/-- A step that is the same on both sides may stand in front. -/
theorem Limited.after (first : EStateM Error σ α) {next next' : α → EStateM Error σ β}
    (h : ∀ a, Limited limit fits' (next a) (next' a)) :
    Limited limit fits' (first >>= next) (first >>= next') := by
  have hfirst : Limited limit (fun _ => True) first first := .refl first
  exact hfirst.bind h fun _ _ => trivial

theorem Limited.map {deep shallow : EStateM Error σ α} (h : Limited limit fits deep shallow)
    (f : α → β) (hfits : ∀ a, fits' (f a) → fits a) :
    Limited limit fits' (deep >>= fun a => pure (f a)) (shallow >>= fun a => pure (f a)) := by
  refine h.bind (fun a => .refl _) ?_
  rintro a middle value last ⟨⟩
  exact hfits a

theorem Limited.ite {c : Prop} [Decidable c] {deep deep' shallow shallow' : EStateM Error σ α}
    (h : Limited limit fits deep shallow) (h' : Limited limit fits deep' shallow') :
    Limited limit fits (if c then deep else deep') (if c then shallow else shallow') := by
  split
  · exact h
  · exact h'

/-- The check of the depth itself. A level that is too deep for the second step fits nothing. -/
theorem Limited.check {depth deepest : Nat} {deep shallow : EStateM Error σ α}
    (hfits : limit < depth → ∀ value, ¬ fits value) (h : Limited limit fits deep shallow) :
    Limited limit fits (if deepest < depth then throw (.tooDeep deepest) else deep)
      (if limit < depth then throw (.tooDeep limit) else shallow) := by
  intro state value last hrun
  split at hrun
  · cases hrun
  · by_cases hdepth : limit < depth
    · rw [if_pos hdepth]
      exact .inr ⟨hfits hdepth value, state, rfl⟩
    · rw [if_neg hdepth]
      exact h hrun

end Limited

/-! ## Writing -/

namespace Encoding

section Limits
variable {source : Context} (limit : Nat)

theorem attributes_of_limit (list : List Attribute) :
    attributes { source with maxDepth := limit } list = attributes source list := by
  have heach : eachAttribute { source with maxDepth := limit } list = eachAttribute source list := by
    induction list with
    | nil => rfl
    | cons first rest ih =>
      rw [eachAttribute, eachAttribute, ih]
      rfl
  rw [attributes, attributes, heach]

theorem limited_behind {depth : Nat} {name : String} {children : List Node}
    {code? : Option TagCode} (hcontent : Limited limit
      (fun _ => Node.levelsAll children + depth ≤ limit + 1) (content source depth children)
      (content { source with maxDepth := limit } depth children)) :
    Limited limit (fun _ => Node.levelsAll children + depth ≤ limit + 1)
      (behind source depth name children code?)
      (behind { source with maxDepth := limit } depth name children code?) := by
  unfold behind
  refine .ite (.refl _) (.after _ fun data? => ?_)
  cases data? with
  | some data => exact .refl _
  | none =>
    refine hcontent.map (fun inner => inner ++ [.finish]) ?_
    exact fun _ => id

mutual

theorem limited_element (depth : Nat) : ∀ root : Element,
    Limited limit (fun _ => root.levels + depth ≤ limit + 1) (element source depth root)
      (element { source with maxDepth := limit } depth root)
  | ⟨name, uri, list, children⟩ => by
    have hlevels : Node.levelsAll children + (depth + 1) =
        Element.levels ⟨name, uri, list, children⟩ + depth := by
      rw [Element.levels_mk]
      omega
    have hcontent := limited_content (depth + 1) children
    rw [element_eq, element_eq]
    refine .check (fun hdepth _ hfits => ?_) ?_
    · rw [Element.levels_mk] at hfits
      omega
    · rw [← hlevels]
      rw [attributes_of_limit limit]
      refine .after get fun current => .after _ fun start => .after _ fun attributes => ?_
      refine (limited_behind limit hcontent).map (fun inner => start ++ attributes ++ inner) ?_
      exact fun _ => id

theorem limited_content (depth : Nat) : ∀ children : List Node,
    Limited limit (fun _ => Node.levelsAll children + depth ≤ limit + 1)
      (content source depth children) (content { source with maxDepth := limit } depth children)
  | [] => .refl _
  | .element child :: rest => by
    rw [Node.levelsAll_element]
    refine (limited_element depth child).bind (fun _ => ?_) fun _ hfits => ?_
    · exact (limited_content depth rest).map _ fun _ hfits => by omega
    · omega
  | .text data :: rest => .after _ fun _ => (limited_content depth rest).map _ fun _ hfits => by
      rwa [Node.levelsAll] at hfits
  | .comment _ :: rest => by
    have hrest := limited_content depth rest
    rwa [content, content, Node.levelsAll]

end

end Limits

/-! ## Why writing fails -/

section Failures
variable {σ α β : Type} {fails : Error → Prop}

/-- Every error of a step is of some kind. -/
def FailsWith (fails : Error → Prop) (step : EStateM Error σ α) : Prop :=
  ∀ ⦃state error last⦄, step state = .error error last → fails error

theorem failsWith_pure (a : α) : FailsWith fails (pure a : EStateM Error σ α) := by
  rintro state error last ⟨⟩

theorem FailsWith.bind {first : EStateM Error σ α} {next : α → EStateM Error σ β}
    (h : FailsWith fails first) (h' : ∀ a, FailsWith fails (next a)) :
    FailsWith fails (first >>= next) := by
  intro state error last hrun
  change EStateM.bind first next state = _ at hrun
  unfold EStateM.bind at hrun
  split at hrun
  · exact h' _ hrun
  · rename_i hfirst
    cases hrun
    exact h hfirst

theorem FailsWith.imp {fails' : Error → Prop} {step : EStateM Error σ α} (h : FailsWith fails step)
    (himp : ∀ error, fails error → fails' error) : FailsWith fails' step :=
  fun _ _ _ hrun => himp _ (h hrun)

theorem FailsWith.map {step : EStateM Error σ α} (h : FailsWith fails step) (f : α → β) :
    FailsWith fails (step >>= fun a => pure (f a)) :=
  h.bind fun _ => failsWith_pure _

end Failures

section Faults
variable {source : Context}

/-- An error of the writer itself, and not one of its limits. -/
abbrev IsFault (error : Error) : Prop := error.kind = .encoding

theorem fails_terminated (text : String) : FailsWith IsFault (lift (Frame.terminated? text)) := by
  intro state error last hrun
  unfold Frame.terminated? at hrun
  dsimp only at hrun
  split at hrun <;> cases hrun
  rfl

theorem fails_counted (data : Bytes) : FailsWith IsFault (lift (Frame.counted? data)) := by
  intro state error last hrun
  unfold Frame.counted? at hrun
  split at hrun <;> cases hrun
  rfl

theorem fails_tableIntern (entry : String) : FailsWith IsFault (TableBuilder.intern entry) := by
  intro table error last hrun
  unfold TableBuilder.intern at hrun
  split at hrun
  · cases hrun
  · split at hrun
    · cases hrun
      rfl
    · split at hrun <;> cases hrun
      rfl

theorem fails_intern (entry : String) : FailsWith IsFault (intern entry) := by
  intro state error last hrun
  unfold intern at hrun
  split at hrun
  · cases hrun
  · rename_i hintern
    cases hrun
    exact fails_tableIntern entry hintern

theorem fails_text (content : String) : FailsWith IsFault (text source content) := by
  unfold text
  split
  · exact (fails_intern content).map _
  · exact (fails_terminated content).map _

theorem fails_literalName (name : String) : FailsWith IsFault (literalName source name) := by
  unfold literalName
  split
  · exact (fails_intern name).map _
  · exact (fails_terminated name).map _

theorem fails_get : FailsWith IsFault (get : Encode State) := by
  rintro state error last ⟨⟩

theorem fails_report (event : Event) : FailsWith IsFault (report event) := by
  rintro state error last ⟨⟩

theorem fails_switchTagPage (page : UInt8) : FailsWith IsFault (switchTagPage page) := by
  intro state error last hrun
  rw [switchTagPage_eq] at hrun
  split at hrun <;> cases hrun

theorem fails_switchAttributePage (page : UInt8) : FailsWith IsFault (switchAttributePage page) := by
  intro state error last hrun
  rw [switchAttributePage_eq] at hrun
  split at hrun <;> cases hrun

theorem fails_attributeValue (value : String) : FailsWith IsFault (attributeValue source value) := by
  rw [attributeValue_eq]
  split
  · exact failsWith_pure _
  · refine fails_get.bind fun current => ?_
    split
    · exact (fails_switchAttributePage _).map _
    · exact (fails_text value).map _

theorem fails_singleAttribute (first : Attribute) :
    FailsWith IsFault (singleAttribute source first) := by
  rw [singleAttribute_eq]
  refine fails_get.bind fun current => ?_
  split
  · exact (fails_switchAttributePage _).bind fun _ => (fails_attributeValue _).map _
  · exact (fails_report _).bind fun _ => (fails_literalName _).bind fun _ =>
      (fails_attributeValue _).map _

theorem fails_eachAttribute (list : List Attribute) :
    FailsWith IsFault (eachAttribute source list) := by
  induction list with
  | nil => exact failsWith_pure _
  | cons first rest ih => exact (fails_singleAttribute first).bind fun _ => ih.map _

theorem fails_attributes (list : List Attribute) : FailsWith IsFault (attributes source list) := by
  unfold attributes
  split
  · exact failsWith_pure _
  · exact (fails_eachAttribute list).map _

theorem fails_tag (name : String) (uri : Option String) (flags : UInt8) (code? : Option TagCode) :
    FailsWith IsFault (tag source name uri flags code?) := by
  cases code? with
  | some code => exact (fails_switchTagPage _).map _
  | none => exact (fails_report _).bind fun _ => (fails_literalName name).map _

theorem fails_opaqueData? (name : String) (children : List Node) (code : TagCode) :
    FailsWith IsFault (opaqueData? source name children code) := by
  intro state error last hrun
  rw [opaqueData?_eq] at hrun
  split at hrun <;> cases hrun

/-- The errors of the writer at some height: its own ones, and one for the depth if that is too
much. -/
def Refuses (source : Context) (height : Nat) (error : Error) : Prop :=
  IsFault error ∨ error = .tooDeep source.maxDepth ∧ source.maxDepth + 1 < height

theorem Refuses.mono {height height' : Nat} (h : height ≤ height') (error : Error) :
    Refuses source height error → Refuses source height' error :=
  Or.imp_right fun ⟨hdeep, hheight⟩ => ⟨hdeep, by omega⟩

theorem refuses_behind {depth : Nat} {name : String} {children : List Node}
    {code? : Option TagCode}
    (h : FailsWith (Refuses source (Node.levelsAll children + depth)) (content source depth children)) :
    FailsWith (Refuses source (Node.levelsAll children + depth))
      (behind source depth name children code?) := by
  unfold behind
  split
  · exact failsWith_pure _
  · refine FailsWith.bind (?_ : FailsWith (Refuses source _) _) fun data? => ?_
    · cases code? with
      | none => exact failsWith_pure none
      | some code => exact (fails_opaqueData? name children code).imp fun _ => .inl
    · cases data? with
      | some data => exact ((fails_counted data).map _).imp fun _ => .inl
      | none => exact h.map _

mutual

theorem refuses_element (depth : Nat) : ∀ root : Element,
    FailsWith (Refuses source (root.levels + depth)) (element source depth root)
  | ⟨name, uri, list, children⟩ => by
    have hbehind (code? : Option TagCode) : FailsWith
        (Refuses source (Element.levels ⟨name, uri, list, children⟩ + depth))
        (behind source (depth + 1) name children code?) := by
      rw [Element.levels_mk, Nat.add_right_comm]
      exact refuses_behind (refuses_content (depth + 1) children)
    rw [element_eq]
    split
    · rename_i hdepth
      rintro state error last ⟨⟩
      rw [Element.levels_mk]
      exact .inr ⟨rfl, by omega⟩
    · exact (fails_get.imp fun _ => .inl).bind fun _ => ((fails_tag _ _ _ _).imp fun _ => .inl).bind
        fun _ => ((fails_attributes list).imp fun _ => .inl).bind fun _ => (hbehind _).map _

theorem refuses_content (depth : Nat) : ∀ children : List Node,
    FailsWith (Refuses source (Node.levelsAll children + depth)) (content source depth children)
  | [] => failsWith_pure _
  | .element child :: rest => by
    rw [Node.levelsAll_element]
    refine ((refuses_element depth child).imp (Refuses.mono (by omega))).bind fun _ => ?_
    exact ((refuses_content depth rest).imp (Refuses.mono (by omega))).map _
  | .text data :: rest => by
    rw [content, Node.levelsAll]
    exact ((fails_text data).imp fun _ => .inl).bind fun _ => (refuses_content depth rest).map _
  | .comment _ :: rest => by
    rw [content, Node.levelsAll]
    exact refuses_content depth rest

end

end Faults

/-! ## Documents that are written -/

section Documents
variable {options : EncodeOptions} {document : Document} {error : Error}

theorem fails_publicId : FailsWith IsFault (publicId options) := by
  unfold publicId
  split
  · split
    · exact failsWith_pure _
    · exact (fails_tableIntern _).map _
  · exact failsWith_pure _

theorem isFault_of_assemble {id : PublicId} {table : TableBuilder} {tokens : List Token}
    (h : assemble options id table tokens = .error error) : IsFault error := by
  unfold assemble Header.bytes at h
  cases hcounted : Frame.counted? table.bytes with
  | ok bytes =>
    simp only [hcounted] at h
    cases h
  | error fault =>
    simp only [hcounted] at h
    cases h
    have hlift : lift (Frame.counted? table.bytes) { table := {} } =
        .error error { table := {} } := by
      rw [hcounted]
      rfl
    exact fails_counted _ hlift

/-- A document is refused for the version, for what it holds, or for its depth. -/
theorem error_of_encodeDocument (h : encodeDocument options document = .error error) :
    newestVersion < options.version ∧ error = .unsupportedVersion options.version ∨
      IsFault error ∨ error = .tooDeep options.maxDepth ∧ options.maxDepth < document.root.levels := by
  unfold encodeDocument run at h
  split at h
  · rename_i hversion
    cases h
    exact .inl ⟨hversion, rfl⟩
  · refine .inr ?_
    split at h
    · rename_i hid
      cases h
      exact .inl (fails_publicId hid)
    · dsimp only at h
      split at h
      · rename_i helement
        cases h
        refine (refuses_element 1 _ helement).imp_right fun ⟨hdeep, hheight⟩ => ⟨hdeep, ?_⟩
        rw [levels_stripped] at hheight
        exact Nat.lt_of_succ_lt_succ hheight
      · exact .inl (isFault_of_assemble h)

end Documents

end Encoding

section Documents
variable {options : EncodeOptions} {document : Document}

/-- A document that is not too deep is not refused for its depth. -/
theorem encodeDocument_ne_tooDeep (hlevels : document.root.levels ≤ options.maxDepth) (limit : Nat) :
    encodeDocument options document ≠ .error (.tooDeep limit) := by
  intro h
  rcases Encoding.error_of_encodeDocument h with ⟨-, hversion⟩ | hfault | ⟨-, hdeep⟩
  · cases hversion
  · cases hfault
  · omega

/-- The depth that is allowed never makes another stream of a document. -/
theorem encodeDocument_of_limit {stream : Bytes} {limit : Nat}
    (h : encodeDocument options document = .ok stream) :
    encodeDocument { options with maxDepth := limit } document =
      if document.root.levels ≤ limit then .ok stream else .error (.tooDeep limit) := by
  obtain ⟨hversion, id, table, tokens, state, hid, helement, hassemble⟩ := Encoding.run_eq_ok h
  have hrun : encodeDocument { options with maxDepth := limit } document = .ok stream ∨
      encodeDocument { options with maxDepth := limit } document = .error (.tooDeep limit) := by
    rcases Encoding.limited_element limit 1 _ helement with hsame | ⟨-, last, hdeep⟩
    · left
      rw [@Encoding.encodeDocument_of_element { options with maxDepth := limit } id table document
        tokens state hversion hid hsame]
      exact hassemble
    · right
      exact @Encoding.encodeDocument_of_element_error { options with maxDepth := limit } id table
        document _ last hversion hid hdeep
  split
  · rename_i hlevels
    exact hrun.resolve_right (encodeDocument_ne_tooDeep hlevels limit)
  · rename_i hlevels
    refine hrun.resolve_left fun hok => hlevels ?_
    have hfits := Encoding.levels_le_of_encode hok
    rwa [levels_stripped] at hfits

end Documents

/-! ## Reading -/

namespace Decoding

section Limits
variable {context : Context} (limit : Nat)

theorem attributes_of_limit (bound : Nat) (current : Option Attribute) :
    attributes { context with maxDepth := limit } bound current =
      attributes context bound current := by
  induction bound generalizing current with
  | zero => rfl
  | succ bound ih =>
    unfold attributes
    simp only [ih]
    rfl

theorem levelsAll_arrange (whitespace : Whitespace) (pieces : List Node) :
    Node.levelsAll (arrange whitespace pieces) = Node.levelsAll pieces :=
  levelsAll_of_children (children_iff.mpr rfl)

theorem limited_element {inner inner' : Decode (List Node)} {depth : Nat} (token : UInt8)
    (hinner : Limited limit (fun pieces => depth + Node.levelsAll pieces ≤ limit) inner inner') :
    Limited limit (fun root => depth + root.levels ≤ limit + 1) (element context inner depth token)
      (element { context with maxDepth := limit } inner' depth token) := by
  rw [element_eq, element_eq]
  refine .check (fun hdepth root hfits => ?_) ?_
  · obtain ⟨name, uri, list, children⟩ := root
    rw [Element.levels_mk] at hfits
    omega
  · refine .after _ fun start => ?_
    simp only [attributes_of_limit]
    refine .after _ fun list => ?_
    have hpieces : Limited limit (fun pieces => depth + Node.levelsAll pieces ≤ limit)
        (if token &&& Code.hasContent ≠ 0 then inner else pure [])
        (if token &&& Code.hasContent ≠ 0 then inner' else pure []) := .ite hinner (.refl _)
    refine hpieces.map (fun pieces => Element.mk start.1 start.2 list (arrange _ pieces)) ?_
    intro pieces hfits
    rw [Element.levels_mk, levelsAll_arrange] at hfits
    omega

theorem limited_content (bound depth : Nat) :
    Limited limit (fun pieces => depth + Node.levelsAll pieces ≤ limit)
      (content context bound depth) (content { context with maxDepth := limit } bound depth) := by
  -- What is read says how deep it goes, so each case takes apart the levels of the pieces.
  induction bound generalizing depth with
  | zero => exact .refl _
  | succ bound ih =>
    unfold content
    refine .after _ fun token => ?_
    split
    · exact .refl _
    · exact .after _ fun _ => ih depth
    · refine .after _ fun text => (ih depth).map (fun others => .text text :: others) ?_
      intro others hfits
      rwa [Node.levelsAll] at hfits
    · exact .refl _
    · refine (limited_element limit token (ih (depth + 1))).bind (fun child => ?_) ?_
      · refine (ih depth).map (fun others => .element child :: others) ?_
        intro others hfits
        rw [Node.levelsAll_element] at hfits
        omega
      · intro child middle value last hrun hfits
        obtain ⟨others, _, -, ⟨⟩⟩ := bind_eq_ok_iff.mp hrun
        rw [Node.levelsAll_element] at hfits
        omega

theorem limited_leading (bound : Nat) :
    Limited limit (fun root => root.levels ≤ limit) (leading context bound)
      (leading { context with maxDepth := limit } bound) := by
  refine .after _ fun _ => .after _ fun token => .after _ fun rest => ?_
  intro state root last hrun
  refine (limited_element limit token (limited_content limit _ 1) hrun).imp_right ?_
  exact fun ⟨hunfit, hdeep⟩ => ⟨fun hfits => hunfit (by omega), hdeep⟩

end Limits

end Decoding

/-- The depth that is allowed never makes another document of a stream. -/
theorem decodeDocument_of_limit {options : DecodeOptions} {stream : Bytes} {document : Document}
    {limit : Nat} (h : decodeDocument options stream = .ok document) :
    decodeDocument { options with maxDepth := limit } stream =
      if document.root.levels ≤ limit then .ok document else .error (.tooDeep limit) := by
  obtain ⟨header, cursor, events, last, hheader, hevents, hleading, hend⟩ := Decoding.run_eq_ok h
  rcases Decoding.limited_leading limit _ hleading with hsame | ⟨hunfit, last', hdeep⟩
  · have hread := @Decoding.decodeDocument_of_body { options with maxDepth := limit } stream header
      cursor events document last hheader hevents (Decoding.body_eq_ok_iff_leading.mpr ⟨hsame, hend⟩)
    rw [if_pos (settled_of_stream (Decoding.stream_of_run hread)).2, hread]
  · rw [if_neg hunfit]
    exact Decoding.decodeDocument_of_body_error hheader hevents (Decoding.body_of_leading_error hdeep)

/-! ## What was written -/

namespace Encoding

mutual

theorem levels_readBack (language : Language) (whitespace : Whitespace) (page : UInt8) :
    ∀ root : Element, (readBack language whitespace page root).1.levels = root.levels
  | ⟨_, _, _, children⟩ => by
    rw [readBack, Element.levels_mk, Element.levels_mk, Decoding.levelsAll_arrange,
      levelsAll_readBackAll language whitespace _ children]

theorem levelsAll_readBackAll (language : Language) (whitespace : Whitespace) (page : UInt8) :
    ∀ nodes : List Node,
      Node.levelsAll (readBackAll language whitespace page nodes).1 = Node.levelsAll nodes
  | [] => rfl
  | .element child :: rest => by
    rw [readBackAll, Node.levelsAll_element, Node.levelsAll_element,
      levels_readBack language whitespace page child, levelsAll_readBackAll language whitespace _ rest]
  | .text content :: rest => by
    rw [readBackAll, Node.levelsAll, Node.levelsAll, levelsAll_readBackAll language whitespace page rest]
  | .comment content :: rest => by
    rw [readBackAll, Node.levelsAll, levelsAll_readBackAll language whitespace page rest]

end

end Encoding

/-- A stream that was written is read unless its document has more levels than are allowed. -/
theorem decodeDocument_of_written {options : EncodeOptions} {reading : DecodeOptions}
    {document : Document} {stream : Bytes} (regular : options.language.Regular)
    (hlanguage : reading.language = options.language)
    (hencoding : reading.opaqueEncoding = options.opaqueEncoding)
    (h : encodeDocument options document = .ok stream) :
    decodeDocument reading stream =
      if document.root.levels ≤ reading.maxDepth then
        .ok ⟨(Encoding.readBack options.language reading.whitespace 0
          (document.root.stripped options.whitespace)).1⟩
      else .error (.tooDeep reading.maxDepth) := by
  have hstream := @Encoding.stream_of_encode options { reading with maxDepth := options.maxDepth }
    document stream regular hlanguage hencoding (Encoding.levels_le_of_encode h) h
  have hread := @decodeDocument_of_limit _ _ _ reading.maxDepth (Decoding.run_of_stream hstream)
  rw [Encoding.levels_readBack, levels_stripped] at hread
  exact hread

end BinaryXml
