import BinaryXml.Proofs.Xml.Attributes

/-! # Start tags that are read as they are written

* `TagReadable`: which names a start tag may be made of.
* `startTag_eq_ok_iff`: what an element takes from its start tag.
* `startTag_tagBytes`: a readable tag is read again.
* `readable_of_startTag`: a tag that is read again is readable.
-/

namespace BinaryXml

open AttributeList (IsKey scan)
open Markup (isSpace quoteAfter)
open Scope (isPlain)

set_option autoImplicit false

/-- The names of an element and of its attributes can stand in a start tag: the first bracket
outside of quotes ends the tag, the name of the element goes up to the first space and has no
colon, and the attributes have different keys that declare no namespaces. -/
structure TagReadable (name : String) (attributes : List Attribute) (children : List Node) :
    Prop where
  plain : ∀ b ∈ Utf8.encode name, isSpace b = false ∧ b ≠ 0x3A
  begins : ∀ b, (Utf8.encode name).head? = some b → b ≠ 0x21 ∧ b ≠ 0x2F ∧ b ≠ 0x3F
  present : name = "" → attributes = [] → children ≠ []
  ends : children ≠ [] → attributes = [] → (Utf8.encode name).getLast? ≠ some 0x2F
  keys : ∀ first ∈ attributes, IsKey (Utf8.encode first.name) ∧
    isPlain (Utf8.encode first.name) = true
  distinct : (attributes.map (·.name)).Nodup
  quotes : quoteAfter none
    (Utf8.encode name ++ attributes.flatMap (Utf8.encode ·.name)) = some none

/-! ## Written start tags -/

namespace Writing

/-- The declaration that a start tag needs, as an attribute. -/
def declared? (scope uri : Option String) : Option Attribute :=
  uri.bind fun uri => if declares scope uri then some ⟨"xmlns", uri⟩ else none

/-- The namespace that holds inside an element. -/
def innerScope (scope uri : Option String) : Option String :=
  match declared? scope uri with
  | some declaration => some declaration.value
  | none => scope

/-- The attributes that a start tag shows. -/
def shown (scope uri : Option String) (attributes : List Attribute) : List Attribute :=
  (declared? scope uri).toList ++ attributes

/-- The bytes of a start tag between its brackets, except for a slash. -/
def tagBytes (charset : Charset) (name : String) (attributes : List Attribute) : Bytes :=
  Utf8.encode name ++ attributes.flatMap (attributeBytes charset)

/-- The slash of an element without content. -/
def slash (children : List Node) : Bytes :=
  if children.isEmpty then [0x2F] else []

theorem slash_cases (children : List Node) :
    children = [] ∧ slash children = [0x2F] ∨ children ≠ [] ∧ slash children = [] := by
  cases children with
  | nil => exact .inl ⟨rfl, rfl⟩
  | cons node rest => exact .inr ⟨by simp, rfl⟩

/-! ## Quotes of a start tag -/

section Quotes
variable {charset : Charset} {quote : Option UInt8}

/-- A value closes its own quotes. -/
theorem quoteAfter_quoted {value : Bytes}
    (hplain : ∀ b ∈ value, b ≠ 0x22 ∧ b ≠ 0x27 ∧ b ≠ 0x3E) (hquote : ∀ b ∈ quote, Markup.isQuote b) :
    quoteAfter quote (0x3D :: 0x22 :: (value ++ [0x22])) = some quote := by
  have hinside (inside last : Option UInt8) (hinside : ∀ b ∈ inside, Markup.isQuote b)
      (hlast : quoteAfter inside [0x22] = some last) :
      quoteAfter inside (value ++ [0x22]) = some last := by
    rw [Markup.quoteAfter_append, Markup.quoteAfter_of_plain inside hplain hinside,
      Option.bind_some, hlast]
  cases quote with
  | none => exact hinside (some 0x22) none (by rintro _ ⟨⟩; rfl) rfl
  | some quote =>
    have hkind := hquote quote rfl
    simp only [Markup.isQuote, Bool.or_eq_true, beq_iff_eq] at hkind
    rcases hkind with rfl | rfl
    · exact hinside none (some 0x22) (by rintro _ ⟨⟩) rfl
    · exact hinside (some 0x27) (some 0x27) hquote rfl

/-- Only the key of an attribute matters for the quotes of its tag. -/
theorem quoteAfter_bytes (item : RawAttribute)
    (hplain : ∀ b ∈ item.value, b ≠ 0x22 ∧ b ≠ 0x27 ∧ b ≠ 0x3E)
    (hquote : ∀ b ∈ quote, Markup.isQuote b) :
    quoteAfter quote item.bytes = quoteAfter quote item.key := by
  have hspace : quoteAfter quote [0x20] = some quote :=
    Markup.quoteAfter_of_plain quote (by simp) hquote
  rw [RawAttribute.bytes, ← List.singleton_append, Markup.quoteAfter_append, hspace,
    Option.bind_some, Markup.quoteAfter_append]
  cases hkey : quoteAfter quote item.key with
  | none => rfl
  | some quote' => exact quoteAfter_quoted hplain (Markup.isQuote_of_quoteAfter hquote hkey)

theorem quoteAfter_attributeBytes (first : Attribute) (hquote : ∀ b ∈ quote, Markup.isQuote b) :
    quoteAfter quote (attributeBytes charset first) = quoteAfter quote (Utf8.encode first.name) := by
  have hplain : ∀ b ∈ Utf8.encode (escape charset true first.value),
      b ≠ 0x22 ∧ b ≠ 0x27 ∧ b ≠ 0x3E := by
    intro b hb
    obtain ⟨-, hclose, hquotes⟩ := plain_of_mem_escape hb
    exact ⟨(hquotes rfl).1, (hquotes rfl).2, hclose⟩
  rw [attributeBytes_eq, rawAttribute]
  generalize Utf8.encode (escape charset true first.value) = value at hplain ⊢
  exact quoteAfter_bytes ⟨Utf8.encode first.name, value⟩ hplain hquote

theorem quoteAfter_attributes (list : List Attribute) (hquote : ∀ b ∈ quote, Markup.isQuote b) :
    quoteAfter quote (list.flatMap (attributeBytes charset)) =
      quoteAfter quote (list.flatMap (Utf8.encode ·.name)) := by
  induction list generalizing quote with
  | nil => rfl
  | cons first rest ih =>
    rw [List.flatMap_cons, List.flatMap_cons, Markup.quoteAfter_append, Markup.quoteAfter_append,
      quoteAfter_attributeBytes first hquote]
    cases hfirst : quoteAfter quote (Utf8.encode first.name) with
    | none => rfl
    | some quote' => exact ih (Markup.isQuote_of_quoteAfter hquote hfirst)

end Quotes

theorem quoteAfter_tagBytes (charset : Charset) (scope uri : Option String) (name : String)
    (attributes : List Attribute) :
    quoteAfter none (tagBytes charset name (shown scope uri attributes)) =
      quoteAfter none (Utf8.encode name ++ attributes.flatMap (Utf8.encode ·.name)) := by
  unfold tagBytes shown
  rw [Markup.quoteAfter_append, Markup.quoteAfter_append]
  cases hname : quoteAfter none (Utf8.encode name) with
  | none => rfl
  | some quote =>
    have hquote := Markup.isQuote_of_quoteAfter (by rintro _ ⟨⟩) hname
    rw [Option.bind_some, Option.bind_some, quoteAfter_attributes _ hquote, List.flatMap_append,
      Markup.quoteAfter_append]
    have hdeclared : quoteAfter quote ((declared? scope uri).toList.flatMap (Utf8.encode ·.name)) =
        some quote := by
      cases hdeclared : declared? scope uri with
      | none => cases quote <;> rfl
      | some declaration =>
        have hxmlns : declaration.name = "xmlns" := by
          obtain ⟨uri, -, hdeclaration⟩ := Option.bind_eq_some_iff.mp hdeclared
          split at hdeclaration
          · cases hdeclaration
            rfl
          · cases hdeclaration
        have hbytes : Utf8.encode "xmlns" = [0x78, 0x6D, 0x6C, 0x6E, 0x73] := rfl
        rw [Option.toList_some, List.flatMap_singleton, hxmlns, hbytes]
        exact Markup.quoteAfter_of_plain quote (by simp) hquote
    rw [hdeclared, Option.bind_some]

end Writing

/-! ## Elements from start tags -/

namespace Parsing

/-- The namespace for what stands before a colon, as a text. -/
def uriOf (scope : Scope) (front : Option Bytes) : Except Error (Option String) :=
  match scope.uri? front with
  | .error fault => .error (.malformedXml fault)
  | .ok none => pure none
  | .ok (some uri) => some <$> utf8 uri

theorem startTag_eq_ok_iff {context : Context} {scope : Scope} {depth : Nat} {tag : Tag}
    {element : Element} : startTag context scope depth tag = .ok element ↔
      depth < context.maxDepth ∧ ∃ name uri list,
        utf8 (Scope.split tag.name).2 = .ok name ∧
        uriOf scope (Scope.split tag.name).1 = .ok uri ∧
        attributes [] (scan tag.attributes).items = .ok list ∧
        (scan tag.attributes).complete = true ∧ element = ⟨name, uri, list, []⟩ := by
  have hstep : startTag context scope depth tag =
      if context.maxDepth ≤ depth then .error (.tooDeep context.maxDepth)
      else utf8 (Scope.split tag.name).2 >>= fun name => uriOf scope (Scope.split tag.name).1 >>=
        fun uri => attributes [] (scan tag.attributes).items >>= fun list =>
          if (scan tag.attributes).complete then pure ⟨name, uri, list, []⟩ else grammarFault := by
    unfold startTag uriOf
    generalize Scope.split tag.name = parts
    obtain ⟨front, localName⟩ := parts
    dsimp only
    by_cases hdepth : context.maxDepth ≤ depth
    · rw [if_pos hdepth, if_pos hdepth]
      rfl
    · rw [if_neg hdepth, if_neg hdepth]
      cases scope.uri? front with
      | error fault => rfl
      | ok uri => cases uri <;> rfl
  rw [hstep]
  by_cases hdepth : context.maxDepth ≤ depth
  · rw [if_pos hdepth]
    exact iff_of_false nofun fun h => absurd hdepth (Nat.not_le.mpr h.1)
  · rw [if_neg hdepth]
    have hlast (name : String) (uri : Option String) (list : List Attribute) :
        (if (scan tag.attributes).complete then pure ⟨name, uri, list, []⟩ else grammarFault) =
          Except.ok element ↔
        (scan tag.attributes).complete = true ∧ element = ⟨name, uri, list, []⟩ := by
      cases (scan tag.attributes).complete with
      | false => exact iff_of_false nofun nofun
      | true =>
        constructor
        · rintro ⟨⟩
          exact ⟨rfl, rfl⟩
        · rintro ⟨-, rfl⟩
          rfl
    simp only [bind_eq_ok_iff, hlast, Nat.lt_of_not_le hdepth, true_and]
    constructor
    · rintro ⟨name, hname, uri, huri, list, hlist, hcomplete, helement⟩
      exact ⟨name, uri, list, hname, huri, hlist, hcomplete, helement⟩
    · rintro ⟨name, uri, list, hname, huri, hlist, hcomplete, helement⟩
      exact ⟨name, hname, uri, huri, list, hlist, hcomplete, helement⟩

end Parsing

/-! ## Readable tags -/

section Readable
open Writing
variable {charset : Charset} {outer uri : Option String} {name : String}
  {attributes : List Attribute} {children : List Node}

theorem shown_cases (outer uri : Option String) (attributes : List Attribute) :
    (shown outer uri attributes = attributes ∧ Writing.innerScope outer uri = outer) ∨
      ∃ value, uri = some value ∧ shown outer uri attributes = ⟨"xmlns", value⟩ :: attributes ∧
        Writing.innerScope outer uri = some value := by
  unfold shown Writing.innerScope
  cases hdeclared : declared? outer uri with
  | none => exact .inl ⟨rfl, rfl⟩
  | some declaration =>
    obtain ⟨value, rfl, hdeclaration⟩ := Option.bind_eq_some_iff.mp hdeclared
    split at hdeclaration
    · cases hdeclaration
      exact .inr ⟨value, rfl, rfl, rfl⟩
    · cases hdeclaration

theorem isKey_xmlns : IsKey (Utf8.encode "xmlns") :=
  ⟨0x78, [0x6D, 0x6C, 0x6E, 0x73], rfl, rfl, by simp [AttributeList.isKey, isSpace]⟩

theorem isPlain_xmlns : isPlain (Utf8.encode "xmlns") = false := by
  decide

theorem isKey_shown (keys : ∀ first ∈ attributes, IsKey (Utf8.encode first.name)) :
    ∀ first ∈ shown outer uri attributes, IsKey (Utf8.encode first.name) := by
  intro first hfirst
  rcases shown_cases outer uri attributes with ⟨hshown, -⟩ | ⟨value, -, hshown, -⟩
  · rw [hshown] at hfirst
    exact keys first hfirst
  · rw [hshown] at hfirst
    rcases List.mem_cons.mp hfirst with rfl | hfirst
    · exact isKey_xmlns
    · exact keys first hfirst

/-- The attributes that declare no namespace are those of the element. -/
theorem filter_shown (keys : ∀ first ∈ attributes, isPlain (Utf8.encode first.name) = true) :
    (shown outer uri attributes).filter (fun first => isPlain (Utf8.encode first.name)) =
      attributes := by
  have hall : attributes.filter (fun first => isPlain (Utf8.encode first.name)) = attributes :=
    List.filter_eq_self.mpr keys
  rcases shown_cases outer uri attributes with ⟨hshown, -⟩ | ⟨value, -, hshown, -⟩
  · rw [hshown, hall]
  · rw [hshown, List.filter_cons_of_neg (by rw [isPlain_xmlns]; decide), hall]

theorem nodup_shown (readable : TagReadable name attributes children) :
    ((shown outer uri attributes).map (·.name)).Nodup := by
  rcases shown_cases outer uri attributes with ⟨hshown, -⟩ | ⟨value, -, hshown, -⟩
  · rw [hshown]
    exact readable.distinct
  · rw [hshown, List.map_cons, List.nodup_cons]
    refine ⟨fun hmem => ?_, readable.distinct⟩
    obtain ⟨first, hfirst, hname⟩ := List.mem_map.mp hmem
    have hplain := (readable.keys first hfirst).2
    rw [hname, isPlain_xmlns] at hplain
    cases hplain

theorem eq_nil_of_attributeBytes {list : List Attribute}
    (h : list.flatMap (attributeBytes charset) = []) : list = [] := by
  cases list with
  | nil => rfl
  | cons first rest => cases h

theorem attributes_head {list : List Attribute} {b : UInt8}
    (h : (list.flatMap (attributeBytes charset)).head? = some b) : b = 0x20 := by
  cases list with
  | nil => cases h
  | cons first rest =>
    cases h
    rfl

theorem attributes_last {list : List Attribute} {b : UInt8}
    (h : (list.flatMap (attributeBytes charset)).getLast? = some b) : b = 0x22 := by
  rcases List.eq_nil_or_concat list with rfl | ⟨front, last, rfl⟩
  · cases h
  · rw [List.concat_eq_append, List.flatMap_append, List.flatMap_singleton] at h
    rw [attributeBytes_eq, RawAttribute.bytes_concat, ← List.append_assoc,
      List.getLast?_concat] at h
    exact (Option.some.inj h).symm

theorem tag_tagBytes (readable : TagReadable name attributes children) (list : List Attribute) :
    Markup.tag (tagBytes charset name list) =
      ⟨Utf8.encode name, list.flatMap (attributeBytes charset)⟩ := by
  have hname : ∀ b ∈ Utf8.encode name, (!isSpace b) = true := by
    intro b hb
    rw [(readable.plain b hb).1]
    rfl
  unfold Markup.tag tagBytes
  rw [List.takeWhile_append_of_pos hname, List.dropWhile_append_of_pos hname]
  cases list with
  | nil => simp
  | cons first rest =>
    rw [List.flatMap_cons, attributeBytes, List.cons_append,
      List.takeWhile_cons_of_neg (by decide), List.dropWhile_cons_of_neg (by decide),
      List.append_nil]

/-- The piece that a start tag is. -/
def startPiece (children : List Node) (tag : Tag) : Markup :=
  if children.isEmpty then .empty tag else .opening tag

theorem tagPiece_slash (content : Bytes) :
    Markup.tagPiece (content ++ [0x2F]) = .empty (Markup.tag content) := by
  unfold Markup.tagPiece
  rw [List.getLast?_concat]
  simp

theorem tagPiece_of_getLast? {content : Bytes} (h : content.getLast? ≠ some 0x2F) :
    Markup.tagPiece content = .opening (Markup.tag content) := by
  unfold Markup.tagPiece
  split
  · rename_i hlast
    exact absurd hlast h
  · rfl

/-- A start tag without the slash before its bracket. -/
theorem tagPiece_cases {content : Bytes} {tag : Tag}
    (h : Markup.tagPiece content = .empty tag ∨ Markup.tagPiece content = .opening tag) :
    ∃ core final, content = core ++ final ∧ tag = Markup.tag core ∧
      ((final = [0x2F] ∧ Markup.tagPiece content = .empty tag) ∨
        final = [] ∧ Markup.tagPiece content = .opening tag ∧ content.getLast? ≠ some 0x2F) := by
  by_cases hlast : content.getLast? = some 0x2F
  · obtain ⟨core, rfl⟩ := List.getLast?_eq_some_iff.mp hlast
    rw [tagPiece_slash] at h ⊢
    rcases h with h | h <;> cases h
    exact ⟨core, [0x2F], rfl, rfl, .inl ⟨rfl, rfl⟩⟩
  · rw [tagPiece_of_getLast? hlast] at h ⊢
    rcases h with h | h <;> cases h
    exact ⟨content, [], (List.append_nil _).symm, rfl, .inr ⟨rfl, rfl, hlast⟩⟩

theorem getLast?_tagBytes (readable : TagReadable name attributes children)
    (hchildren : children ≠ []) :
    (tagBytes charset name (shown outer uri attributes)).getLast? ≠ some 0x2F := by
  intro hlast
  unfold tagBytes at hlast
  rw [List.getLast?_append] at hlast
  cases hattributes : ((shown outer uri attributes).flatMap (attributeBytes charset)).getLast? with
  | some b =>
    rw [hattributes] at hlast
    cases hlast
    cases attributes_last hattributes
  | none =>
    rw [hattributes] at hlast
    have hnil := eq_nil_of_attributeBytes (List.getLast?_eq_none_iff.mp hattributes)
    exact readable.ends hchildren (List.append_eq_nil_iff.mp hnil).2 hlast

theorem head?_tagBytes (readable : TagReadable name attributes children) {b : UInt8}
    (h : (tagBytes charset name (shown outer uri attributes) ++ slash children).head? = some b) :
    b ≠ 0x21 ∧ b ≠ 0x2F ∧ b ≠ 0x3F := by
  unfold tagBytes at h
  rw [List.append_assoc, List.head?_append] at h
  cases hname : (Utf8.encode name).head? with
  | some first =>
    rw [hname] at h
    cases h
    exact readable.begins _ hname
  | none =>
    rw [hname, List.head?_append] at h
    cases hattributes : ((shown outer uri attributes).flatMap (attributeBytes charset)).head? with
    | some first =>
      rw [hattributes] at h
      cases h
      rw [attributes_head hattributes]
      decide
    | none =>
      have hnil := eq_nil_of_attributeBytes (List.head?_eq_none_iff.mp hattributes)
      have hempty : name = "" := Utf8.encode_injective (List.head?_eq_none_iff.mp hname)
      have hchildren := readable.present hempty (List.append_eq_nil_iff.mp hnil).2
      rw [hattributes] at h
      rcases slash_cases children with ⟨hnone, -⟩ | ⟨-, hslash⟩
      · exact absurd hnone hchildren
      · rw [hslash] at h
        cases h

/-- A readable start tag is one piece. -/
theorem starts_tagBytes (readable : TagReadable name attributes children) (rest : Bytes) :
    Parsing.Starts
      (0x3C :: (tagBytes charset name (shown outer uri attributes) ++ slash children ++ 0x3E :: rest))
      (startPiece children ⟨Utf8.encode name,
        (shown outer uri attributes).flatMap (attributeBytes charset)⟩) rest := by
  have hquote : quoteAfter none
      (tagBytes charset name (shown outer uri attributes) ++ slash children) = some none := by
    rw [Markup.quoteAfter_append, quoteAfter_tagBytes, readable.quotes, Option.bind_some]
    rcases slash_cases children with ⟨-, hslash⟩ | ⟨-, hslash⟩ <;> rw [hslash] <;> rfl
  refine ⟨by simp, ?_⟩
  rw [Markup.next_of_content (fun b hb => head?_tagBytes readable hb) hquote]
  have htag : Markup.tag (tagBytes charset name (shown outer uri attributes)) = _ :=
    tag_tagBytes readable _
  unfold startPiece
  rcases slash_cases children with ⟨rfl, hslash⟩ | ⟨hchildren, hslash⟩
  · rw [hslash, tagPiece_slash, htag]
    rfl
  · rw [hslash, List.append_nil, tagPiece_of_getLast? (getLast?_tagBytes readable hchildren), htag]
    cases children with
    | nil => exact absurd rfl hchildren
    | cons node rest => rfl

/-! ### Namespaces -/

/-- A scope gives elements without a colon the namespace that the writer had declared last. -/
def Holds (charset : Charset) (scope : Scope) (outer : Option String) : Prop :=
  scope.find? [] = outer.map fun uri => Utf8.encode (escape charset true uri)

theorem holds_initial : Holds charset Scope.initial none := by
  have hnone : Scope.initial.find? [] = none := by decide
  exact hnone

theorem holds_bind (scope : Scope) (uri : String) :
    Holds charset (scope.bind [] (Utf8.encode (escape charset true uri))) (some uri) := by
  generalize hvalue : Utf8.encode (escape charset true uri) = value
  unfold Holds Scope.find? Scope.bind
  rw [List.find?_cons_of_pos (by simp), Option.map_some, Option.map_some, hvalue]

theorem declareOne_of_isPlain (scope : Scope) (item : RawAttribute)
    (h : isPlain item.key = true) : scope.declareOne item = .ok scope := by
  unfold isPlain at h
  unfold Scope.declareOne
  rw [Option.isNone_iff_eq_none.mp h]

theorem declareOne_xmlns (scope : Scope) (uri : Bytes) :
    scope.declareOne ⟨Utf8.encode "xmlns", uri⟩ = .ok (scope.bind [] uri) := by
  have hxmlns : Scope.declared? (Utf8.encode "xmlns") = some none := by decide
  unfold Scope.declareOne
  rw [hxmlns]

theorem declare_cons (scope : Scope) (item : RawAttribute) (items : List RawAttribute) :
    scope.declare (item :: items) = scope.declareOne item >>= fun scope => scope.declare items :=
  List.foldlM_cons

theorem declare_of_isPlain (scope : Scope) {items : List RawAttribute}
    (h : ∀ item ∈ items, isPlain item.key = true) : scope.declare items = .ok scope := by
  induction items with
  | nil => rfl
  | cons item rest ih =>
    rw [declare_cons, declareOne_of_isPlain scope item (h item List.mem_cons_self)]
    exact ih fun other hmem => h other (List.mem_cons_of_mem _ hmem)

/-- The declaration of a start tag is the nearest one inside its element. -/
theorem innerScope_shown {scope : Scope} {tagName : Bytes} (holds : Holds charset scope outer)
    (readable : TagReadable name attributes children) :
    ∃ inner, Parsing.innerScope scope
        ⟨tagName, (shown outer uri attributes).flatMap (attributeBytes charset)⟩ = .ok inner ∧
      Holds charset inner (Writing.innerScope outer uri) := by
  have hscan : scan ((shown outer uri attributes).flatMap (attributeBytes charset)) =
      ⟨(shown outer uri attributes).map (rawAttribute charset), true⟩ :=
    scan_attributes (isKey_shown fun first hfirst => (readable.keys first hfirst).1)
  have hplain (scope : Scope) :
      scope.declare (attributes.map (rawAttribute charset)) = .ok scope := by
    refine declare_of_isPlain scope fun item hitem => ?_
    obtain ⟨first, hfirst, rfl⟩ := List.mem_map.mp hitem
    exact (readable.keys first hfirst).2
  unfold Parsing.innerScope
  dsimp only
  rw [hscan]
  dsimp only
  rcases shown_cases outer uri attributes with ⟨hshown, hinner⟩ | ⟨value, -, hshown, hinner⟩
  · rw [hshown, hplain, hinner]
    exact ⟨scope, rfl, holds⟩
  · rw [hshown, hinner]
    have hdeclare : scope.declare (List.map (rawAttribute charset) (⟨"xmlns", value⟩ :: attributes)) =
        .ok (scope.bind [] (Utf8.encode (escape charset true value))) := by
      rw [List.map_cons, declare_cons, rawAttribute, declareOne_xmlns]
      exact hplain _
    rw [hdeclare]
    exact ⟨_, rfl, holds_bind scope value⟩

/-- The namespace that is read where some namespace was declared last. References in it are not
resolved. -/
def readUri (charset : Charset) (declared : Option String) : Option String :=
  (declared.map (escape charset true)).filter (!·.isEmpty)

theorem uriOf_none {scope : Scope} {declared : Option String}
    (holds : Holds charset scope declared) :
    Parsing.uriOf scope none = .ok (readUri charset declared) := by
  unfold Parsing.uriOf Scope.uri? readUri
  dsimp only
  rw [holds]
  cases declared with
  | none => rfl
  | some uri =>
    rw [Option.map_some, Option.map_some, Option.filter_some, Option.filter_some]
    by_cases hempty : escape charset true uri = ""
    · rw [hempty]
      rfl
    · have hbytes : Utf8.encode (escape charset true uri) ≠ [] := fun hnil =>
        hempty (Utf8.encode_injective hnil)
      have hstring : (escape charset true uri).isEmpty = false :=
        String.isEmpty_eq_false_iff.mpr hempty
      rw [if_pos (by simpa using hbytes), if_pos (by simpa using hstring)]
      dsimp only
      rw [Parsing.utf8_encode]
      rfl

theorem split_of_notMem {bytes : Bytes} (h : (0x3A : UInt8) ∉ bytes) :
    Scope.split bytes = (none, bytes) := by
  unfold Scope.split
  cases hcut : Markup.cut [0x3A] bytes with
  | none => rfl
  | some found =>
    obtain ⟨front, back⟩ := found
    have hbytes := Markup.cut_eq_some hcut
    exact absurd (by rw [hbytes]; simp) h

theorem startTag_tagBytes {context : Parsing.Context} {scope : Scope} {depth : Nat}
    (holds : Holds charset scope (Writing.innerScope outer uri))
    (readable : TagReadable name attributes children) (hdepth : depth < context.maxDepth) :
    Parsing.startTag context scope depth ⟨Utf8.encode name,
        (shown outer uri attributes).flatMap (attributeBytes charset)⟩ =
      .ok ⟨name, readUri charset (Writing.innerScope outer uri), attributes, []⟩ := by
  have hscan : scan ((shown outer uri attributes).flatMap (attributeBytes charset)) =
      ⟨(shown outer uri attributes).map (rawAttribute charset), true⟩ :=
    scan_attributes (isKey_shown fun first hfirst => (readable.keys first hfirst).1)
  have hsplit : Scope.split (Utf8.encode name) = (none, Utf8.encode name) :=
    split_of_notMem fun hmem => (readable.plain _ hmem).2 rfl
  have hattributes : Parsing.attributes [] ((shown outer uri attributes).map (rawAttribute charset)) =
      .ok _ := Parsing.attributes_rawAttribute charset (by simp) (nodup_shown readable)
  rw [filter_shown fun first hfirst => (readable.keys first hfirst).2] at hattributes
  refine Parsing.startTag_eq_ok_iff.mpr ⟨hdepth, name, _, attributes, ?_, ?_, ?_, ?_, rfl⟩
  · dsimp only
    rw [hsplit, Parsing.utf8_encode]
  · dsimp only
    rw [hsplit, uriOf_none holds]
  · dsimp only
    rw [hscan, hattributes]
  · dsimp only
    rw [hscan]

end Readable

end BinaryXml
