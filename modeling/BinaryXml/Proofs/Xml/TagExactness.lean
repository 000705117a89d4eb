import BinaryXml.Proofs.Xml.Tags

/-! # Tags that are read back are readable

A text goes on as a start tag was written, and its first piece is a start tag of the same name and
with the same attributes.

* `tagName_of_split`: the name in the tag that is read is the one that was written.
* `attributes_of_scan`: the attributes go up to the bracket that was written.
* `readable_of_startTag`: the tag is readable, and nothing else is part of it.
-/

namespace BinaryXml

open AttributeList (IsKey scan)
open Markup (isSpace quoteAfter)
open Scope (isPlain)
open Writing

set_option autoImplicit false

/-- Behind some bytes the next bracket opens. -/
def Opens (bytes : Bytes) : Prop :=
  ∀ front back, bytes = front ++ 0x3E :: back → 0x3C ∈ front

theorem opens_nil : Opens [] := by
  intro front back h
  simp at h

theorem opens_cons (rest : Bytes) : Opens (0x3C :: rest) := by
  intro front back h
  cases front with
  | nil => cases h
  | cons b front =>
    cases h
    exact List.mem_cons_self

theorem Opens.append {bytes rest : Bytes} (hbytes : (0x3E : UInt8) ∉ bytes) (h : Opens rest) :
    Opens (bytes ++ rest) := by
  intro front back heq
  rcases List.append_eq_append_iff.mp heq with ⟨c, rfl, hrest⟩ | ⟨c, rfl, hback⟩
  · exact List.mem_append_right _ (h c back hrest)
  · cases c with
    | nil => exact absurd (h [] back hback.symm) (by simp)
    | cons b c =>
      cases hback
      exact absurd (by simp) hbytes

/-! ## Where a tag ends -/

/-- A tag that was read ends where it was written to end, or at a bracket among its names, if no
brackets open inside that were written behind it. -/
theorem exists_cut {written content more rest : Bytes}
    (heq : content ++ 0x3E :: rest = written ++ 0x3E :: more) (opens : Opens more)
    (hcount : more.count 0x3C ≤ rest.count 0x3C) :
    (content = written ∧ rest = more) ∨ ∃ after, written = content ++ 0x3E :: after := by
  rcases List.append_eq_append_iff.mp heq with ⟨c, hwritten, hrest⟩ | ⟨c, hcontent, hmore⟩
  · cases c with
    | nil =>
      rw [List.append_nil] at hwritten
      exact .inl ⟨hwritten.symm, (List.cons.inj hrest).2⟩
    | cons b c =>
      obtain ⟨rfl, -⟩ := List.cons.inj hrest
      exact .inr ⟨c, hwritten⟩
  · cases c with
    | nil =>
      rw [List.append_nil] at hcontent
      exact .inl ⟨hcontent, (List.cons.inj hmore).2.symm⟩
    | cons b c =>
      obtain ⟨rfl, rfl⟩ := List.cons.inj hmore
      have hpos := List.count_pos_iff.mpr (opens c rest rfl)
      rw [List.append_eq, List.count_append, List.count_cons_of_ne (by decide)] at hcount
      omega

/-! ## The name -/

/-- What stands behind the first colon is shorter than a name with one. -/
theorem split_cases (name : Bytes) :
    Scope.split name = (none, name) ∧ (0x3A : UInt8) ∉ name ∨
      (Scope.split name).2.length < name.length := by
  by_cases hcolon : (0x3A : UInt8) ∈ name
  · obtain ⟨front, back, rfl, hfront⟩ := List.eq_append_cons_of_mem hcolon
    refine .inr ?_
    unfold Scope.split
    rw [Markup.cut_of_notMem hfront]
    dsimp only
    rw [List.length_append, List.length_cons]
    omega
  · exact .inl ⟨split_of_notMem hcolon, hcolon⟩

section Back
variable {charset : Charset} {name : String} {list : List Attribute} {children : List Node}

theorem slash_ne_bracket (children : List Node) : (0x3E : UInt8) ∉ slash children := by
  rcases slash_cases children with ⟨-, hslash⟩ | ⟨-, hslash⟩ <;> rw [hslash] <;> decide

/-- The name in the tag that is read is the one that was written. -/
theorem tagName_of_split {core behind : Bytes}
    (hwritten : tagBytes charset name list ++ slash children = core ++ behind)
    (hname : (Scope.split (core.takeWhile (!isSpace ·))).2 = Utf8.encode name)
    (hends : core.getLast? = some 0x2F → behind ≠ []) :
    core.takeWhile (!isSpace ·) = Utf8.encode name ∧ (0x3A : UInt8) ∉ Utf8.encode name := by
  rcases split_cases (core.takeWhile (!isSpace ·)) with ⟨hsplit, hcolon⟩ | hshort
  · rw [hsplit] at hname
    dsimp only at hname
    exact ⟨hname, hname ▸ hcolon⟩
  -- A longer name would take in what stands behind the name: a space, or the slash of the tag.
  · exfalso
    rw [hname] at hshort
    have htext := List.takeWhile_append_dropWhile (p := fun b => !isSpace b) (l := core)
    have hfront : Utf8.encode name <+: core ++ behind := by
      rw [← hwritten, tagBytes, List.append_assoc]
      exact List.prefix_append _ _
    have hread : core.takeWhile (!isSpace ·) <+: core ++ behind :=
      (List.takeWhile_prefix _).trans (List.prefix_append _ _)
    obtain ⟨more, hmore⟩ := List.prefix_of_prefix_length_le hfront hread (Nat.le_of_lt hshort)
    cases more with
    | nil =>
      rw [← hmore, List.append_nil] at hshort
      exact Nat.lt_irrefl _ hshort
    | cons b more =>
      have hb : isSpace b = false := by
        have hmem : b ∈ core.takeWhile (!isSpace ·) := by
          rw [← hmore]
          simp
        simpa using List.all_eq_true.mp List.all_takeWhile b hmem
      rw [tagBytes, List.append_assoc, ← htext, ← hmore, List.append_assoc, List.append_assoc,
        List.append_cancel_left_eq] at hwritten
      cases list with
      | cons first rest =>
        rw [List.flatMap_cons, attributeBytes] at hwritten
        cases (List.cons.inj hwritten).1
        cases hb
      | nil =>
        rcases slash_cases children with ⟨-, hslash⟩ | ⟨-, hslash⟩
        · rw [List.flatMap_nil, List.nil_append, hslash] at hwritten
          obtain ⟨rfl, hnil⟩ := List.cons.inj hwritten
          obtain ⟨rfl, hrest⟩ := List.append_eq_nil_iff.mp hnil.symm
          obtain ⟨hdrop, hbehind⟩ := List.append_eq_nil_iff.mp hrest
          refine hends ?_ hbehind
          rw [← htext, ← hmore, hdrop, List.append_nil, List.getLast?_concat]
        · rw [List.flatMap_nil, List.nil_append, hslash] at hwritten
          cases hwritten

/-! ## The attributes -/

variable {outer uri : Option String} {attributes : List Attribute}

/-- If no bracket stands behind the attributes, then only a slash does. -/
theorem eq_of_final {text final : Bytes}
    (hwritten : (shown outer uri attributes).flatMap (attributeBytes charset) ++ slash children =
      text ++ final)
    (hfinal : final = [0x2F] ∨ final = [] ∧ text.getLast? ≠ some 0x2F) :
    text = (shown outer uri attributes).flatMap (attributeBytes charset) ∧
      final = slash children := by
  rcases slash_cases children with ⟨-, hslash⟩ | ⟨-, hslash⟩
  · rw [hslash] at hwritten ⊢
    rcases hfinal with rfl | ⟨rfl, hlast⟩
    · exact ⟨(List.append_inj' hwritten rfl).1.symm, rfl⟩
    · rw [List.append_nil] at hwritten
      rw [← hwritten, List.getLast?_concat] at hlast
      exact absurd rfl hlast
  · rw [hslash, List.append_nil] at hwritten
    rw [hslash]
    rcases hfinal with rfl | ⟨rfl, -⟩
    · have hlast : ((shown outer uri attributes).flatMap
          (attributeBytes charset)).getLast? = some 0x2F := by
        rw [hwritten, List.getLast?_concat]
      cases attributes_last hlast
    · rw [List.append_nil] at hwritten
      exact ⟨hwritten.symm, rfl⟩

/-- No bracket that was written among the attributes ends the tag: fewer attributes would be read
than there are. -/
theorem nil_of_scan {text final after : Bytes}
    (hwritten : (shown outer uri attributes).flatMap (attributeBytes charset) ++ slash children =
      text ++ (final ++ after))
    (hslash : final = [] ∨ final = [0x2F]) (hafter : after = [] ∨ ∃ rest, after = 0x3E :: rest)
    (hkeys : ∀ first ∈ attributes, IsKey (Utf8.encode first.name) ∧
      isPlain (Utf8.encode first.name) = true)
    (hlength : attributes.length =
      (scan text).items.countP fun item => isPlain item.key)
    (hcomplete : (scan text).complete = true) : after = [] := by
  rcases hafter with rfl | ⟨rest, rfl⟩
  · rfl
  · exfalso
    have hshown : (shown outer uri attributes).countP
        (fun first => isPlain (Utf8.encode first.name)) = attributes.length := by
      rw [List.countP_eq_length_filter, filter_shown fun first hfirst => (hkeys first hfirst).2]
    -- A declaration has no bracket in its name, so that this is about the attributes.
    have hbrackets : ∀ first ∈ shown outer uri attributes, 0x3E ∈ Utf8.encode first.name →
        isPlain (Utf8.encode first.name) = true := by
      intro first hfirst hbracket
      rcases shown_cases outer uri attributes with ⟨hsame, -⟩ | ⟨value, -, hsame, -⟩
      · rw [hsame] at hfirst
        exact (hkeys first hfirst).2
      · rw [hsame] at hfirst
        rcases List.mem_cons.mp hfirst with rfl | hfirst
        · have hxmlns : (0x3E : UInt8) ∉ Utf8.encode "xmlns" := by decide
          exact absurd hbracket hxmlns
        · exact (hkeys first hfirst).2
    rw [← List.append_assoc] at hwritten
    have hlt := countP_lt_of_cut (isKey_shown fun first hfirst => (hkeys first hfirst).1)
      hbrackets hslash (slash_ne_bracket children) hwritten hcomplete
    rw [hshown, hlength] at hlt
    exact Nat.lt_irrefl _ hlt

/-- The attributes that are read go up to the bracket that was written. -/
theorem attributes_of_scan {text final after : Bytes}
    (hwritten : (shown outer uri attributes).flatMap (attributeBytes charset) ++ slash children =
      text ++ (final ++ after))
    (hfinal : final = [0x2F] ∨ final = [] ∧ text.getLast? ≠ some 0x2F)
    (hafter : after = [] ∨ ∃ rest, after = 0x3E :: rest)
    (hattributes : Parsing.attributes [] (scan text).items = .ok attributes)
    (hcomplete : (scan text).complete = true) :
    text = (shown outer uri attributes).flatMap (attributeBytes charset) ∧
      final = slash children ∧ after = [] ∧
      (∀ first ∈ attributes, IsKey (Utf8.encode first.name) ∧
        isPlain (Utf8.encode first.name) = true) ∧ (attributes.map (·.name)).Nodup := by
  obtain ⟨hmem, hnodup, hlength⟩ := Parsing.attributes_eq_ok hattributes
  have hkeys : ∀ first ∈ attributes, IsKey (Utf8.encode first.name) ∧
      isPlain (Utf8.encode first.name) = true := by
    intro first hfirst
    obtain ⟨-, hplain, item, hitem, hkey⟩ := hmem first hfirst
    exact ⟨hkey ▸ isKey_of_mem_scan hitem, hplain⟩
  have hslash : final = [] ∨ final = [0x2F] := hfinal.symm.imp_left (·.1)
  have hnil : after = [] := nil_of_scan hwritten hslash hafter hkeys hlength hcomplete
  subst hnil
  rw [List.append_nil] at hwritten
  obtain ⟨htext, hends⟩ := eq_of_final hwritten hfinal
  exact ⟨htext, hends, rfl, hkeys, hnodup⟩

/-! ## The whole tag -/

theorem quoteAfter_of_append_slash {bytes : Bytes}
    (h : quoteAfter none (bytes ++ slash children) = some none) :
    quoteAfter none bytes = some none := by
  rw [Markup.quoteAfter_append] at h
  obtain ⟨quote, hquote, hslash⟩ := Option.bind_eq_some_iff.mp h
  have hsame : quoteAfter quote (slash children) = some quote := by
    refine Markup.quoteAfter_of_plain quote ?_ (Markup.isQuote_of_quoteAfter (by rintro _ ⟨⟩) hquote)
    rcases slash_cases children with ⟨-, hbytes⟩ | ⟨-, hbytes⟩ <;> rw [hbytes] <;> simp
  rw [hsame] at hslash
  cases hslash
  exact hquote

/-- The slash at the end of a tag says whether there are children. -/
theorem startPiece_of_final {final : Bytes} {piece : Markup} {tag : Tag} {ends : Prop}
    (hkind : final = [0x2F] ∧ piece = .empty tag ∨ final = [] ∧ piece = .opening tag ∧ ends)
    (hfinal : final = slash children) :
    piece = startPiece children tag ∧ (children ≠ [] → slash children = [] ∧ ends) := by
  unfold startPiece
  rcases slash_cases children with ⟨rfl, hslash⟩ | ⟨hchildren, hslash⟩
  · rcases hkind with ⟨-, hpiece⟩ | ⟨hempty, -⟩
    · exact ⟨hpiece, fun hne => absurd rfl hne⟩
    · rw [hfinal, hslash] at hempty
      cases hempty
  · rcases hkind with ⟨hempty, -⟩ | ⟨-, hpiece, hends⟩
    · rw [hfinal, hslash] at hempty
      cases hempty
    · exact ⟨by rw [hpiece, if_neg (by simpa using hchildren)], fun _ => ⟨hslash, hends⟩⟩

/-- The tag that was written is readable if it begins and ends as a tag of its kind. -/
theorem tagReadable_of_content
    (hspace : ∀ space, uri = some space → name ≠ "" ∧ (Utf8.encode name).getLast? ≠ some 0x2F)
    (hplain : ∀ b ∈ Utf8.encode name, isSpace b = false ∧ b ≠ 0x3A)
    (hbegins : ∀ b, (tagBytes charset name (shown outer uri attributes) ++
      slash children).head? = some b → b ≠ 0x21 ∧ b ≠ 0x2F ∧ b ≠ 0x3F)
    (hends : children ≠ [] → slash children = [] ∧
      (tagBytes charset name (shown outer uri attributes) ++ slash children).getLast? ≠ some 0x2F)
    (hkeys : ∀ first ∈ attributes, IsKey (Utf8.encode first.name) ∧
      isPlain (Utf8.encode first.name) = true)
    (hnodup : (attributes.map (·.name)).Nodup)
    (hquote : quoteAfter none (tagBytes charset name (shown outer uri attributes) ++
      slash children) = some none) : TagReadable name attributes children where
  plain := hplain
  begins := by
    intro b hb
    refine hbegins b ?_
    rw [tagBytes, List.append_assoc, List.head?_append, hb]
    rfl
  present := by
    rintro rfl rfl rfl
    have hnone : uri = none := by
      cases huri : uri with
      | none => rfl
      | some space => exact absurd rfl (hspace space huri).1
    subst hnone
    exact (hbegins 0x2F rfl).2.1 rfl
  ends := by
    rintro hchildren rfl
    cases huri : uri with
    | some space => exact (hspace space huri).2
    | none =>
      subst huri
      obtain ⟨hslash, hlast⟩ := hends hchildren
      rw [hslash, List.append_nil, tagBytes] at hlast
      simpa [shown, declared?] using hlast
  keys := hkeys
  distinct := hnodup
  quotes := by
    rw [← quoteAfter_tagBytes charset outer uri]
    exact quoteAfter_of_append_slash hquote

/-- A start tag that is read back is readable, and nothing else is part of it. -/
theorem readable_of_startTag {context : Parsing.Context} {scope : Scope} {depth : Nat}
    {piece : Markup} {tag : Tag} {element : Element} {more rest : Bytes}
    (hspace : ∀ space, uri = some space →
      name ≠ "" ∧ (Utf8.encode name).getLast? ≠ some 0x2F)
    (starts : Parsing.Starts (0x3C :: (tagBytes charset name (shown outer uri attributes) ++
      slash children ++ 0x3E :: more)) piece rest)
    (hpiece : piece = .empty tag ∨ piece = .opening tag)
    (start : Parsing.startTag context scope depth tag = .ok element)
    (hname : element.name = name) (hattributes : element.attributes = attributes)
    (opens : Opens more) (hcount : more.count 0x3C ≤ rest.count 0x3C) :
    TagReadable name attributes children ∧ rest = more ∧ piece = startPiece children
      ⟨Utf8.encode name, (shown outer uri attributes).flatMap (attributeBytes charset)⟩ := by
  obtain ⟨content, htext, hbegins, hquote, htagPiece⟩ := Markup.exists_content starts.2 hpiece
  subst htagPiece
  obtain ⟨core, final, rfl, rfl, hkind⟩ := tagPiece_cases hpiece
  obtain ⟨after, hwritten, hafter⟩ : ∃ after, tagBytes charset name (shown outer uri attributes) ++
      slash children = core ++ (final ++ after) ∧
        (after = [] ∧ rest = more ∨ ∃ c, after = 0x3E :: c) := by
    rcases exists_cut (List.cons.inj htext).2.symm opens hcount with ⟨hsame, hrest⟩ | ⟨after, hcut⟩
    · exact ⟨[], by rw [← hsame, List.append_nil], .inl ⟨rfl, hrest⟩⟩
    · exact ⟨0x3E :: after, by rw [hcut, List.append_assoc], .inr ⟨after, rfl⟩⟩
  obtain ⟨-, name', uri', list', hsplit, -, hlist, hcomplete, rfl⟩ :=
    Parsing.startTag_eq_ok_iff.mp start
  dsimp only at hname hattributes
  subst hname hattributes
  -- The name first: what is read behind it is then what was written behind it.
  obtain ⟨htake, hcolon⟩ := tagName_of_split hwritten (Parsing.encode_of_utf8 hsplit).symm (by
    intro hlast hnil
    rcases hkind with ⟨rfl, -⟩ | ⟨rfl, -, hends⟩
    · cases hnil
    · rw [List.append_nil] at hends
      exact hends hlast)
  have hcore : core = Utf8.encode name' ++ core.dropWhile (!isSpace ·) := by
    rw [← htake, List.takeWhile_append_dropWhile]
  have hrest : (shown outer uri list').flatMap (attributeBytes charset) ++ slash children =
      core.dropWhile (!isSpace ·) ++ (final ++ after) := by
    rw [hcore, tagBytes, List.append_assoc, List.append_assoc,
      List.append_cancel_left_eq] at hwritten
    exact hwritten
  obtain ⟨hattributesText, hfinal, hnil, hkeys, hnodup⟩ := attributes_of_scan hrest
    (by
      rcases hkind with ⟨hslash, -⟩ | ⟨hslash, -, hends⟩
      · exact .inl hslash
      · refine .inr ⟨hslash, fun hlast => hends ?_⟩
        rw [hslash, List.append_nil, hcore, List.getLast?_append, hlast]
        rfl)
    (hafter.imp_left (·.1)) hlist hcomplete
  have hsame : rest = more := by
    rcases hafter with ⟨-, hsame⟩ | ⟨c, hbracket⟩
    · exact hsame
    · rw [hnil] at hbracket
      cases hbracket
  have hcontent : core ++ final = tagBytes charset name' (shown outer uri list') ++ slash children := by
    rw [hwritten, hnil, List.append_nil]
  have htag : Markup.tag core =
      ⟨Utf8.encode name', (shown outer uri list').flatMap (attributeBytes charset)⟩ := by
    unfold Markup.tag
    rw [htake, hattributesText]
  have hplain : ∀ b ∈ Utf8.encode name', isSpace b = false ∧ b ≠ 0x3A := by
    intro b hb
    refine ⟨?_, fun hsep => hcolon (hsep ▸ hb)⟩
    rw [← htake] at hb
    simpa using List.all_eq_true.mp List.all_takeWhile b hb
  obtain ⟨hpiece, hends⟩ := startPiece_of_final hkind hfinal
  rw [hcontent] at hbegins hends hquote
  exact ⟨tagReadable_of_content hspace hplain hbegins hends hkeys hnodup hquote, hsame,
    htag ▸ hpiece⟩

end Back

end BinaryXml
