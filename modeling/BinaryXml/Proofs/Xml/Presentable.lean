import Mathlib.Tactic.MkIffOfInductiveProp
import BinaryXml.Proofs.Document.Every
import BinaryXml.Proofs.Xml.Readable

/-! # Documents that can be written as XML

* `isXmlName`: names as XML has them, without a colon.
* `Element.Presentable`: the names in a tree are such names, and a character set has them.
* `checked_element`: a tree can be written in a character set that has its names; else the first
  name that it lacks is the error.
-/

namespace BinaryXml

open Writing

set_option autoImplicit false

/-! ## Names -/

namespace XmlName

/-- The characters that a name may start with, as ranges of code points, but for the colon. -/
def startRanges : List (Nat × Nat) := [
  (0x41, 0x5A), (0x5F, 0x5F), (0x61, 0x7A), (0xC0, 0xD6), (0xD8, 0xF6), (0xF8, 0x2FF),
  (0x370, 0x37D), (0x37F, 0x1FFF), (0x200C, 0x200D), (0x2070, 0x218F), (0x2C00, 0x2FEF),
  (0x3001, 0xD7FF), (0xF900, 0xFDCF), (0xFDF0, 0xFFFD), (0x10000, 0xEFFFF)]

/-- The further characters that a name may go on with. -/
def furtherRanges : List (Nat × Nat) :=
  [(0x2D, 0x2E), (0x30, 0x39), (0xB7, 0xB7), (0x300, 0x36F), (0x203F, 0x2040)]

/-- Whether a character is in one of some ranges. -/
def within (ranges : List (Nat × Nat)) (c : Char) : Bool :=
  ranges.any fun range => range.1 ≤ c.toNat && c.toNat ≤ range.2

end XmlName

/-- Whether a text is a name of XML without a colon. -/
def isXmlName (name : String) : Bool :=
  match name.toList with
  | [] => false
  | first :: rest => XmlName.within XmlName.startRanges first &&
      rest.all (XmlName.within (XmlName.startRanges ++ XmlName.furtherRanges))

/-- No character of a name is white space or markup. -/
theorem XmlName.notMem_of_within {c : Char}
    (h : within (startRanges ++ furtherRanges) c = true) :
    c ∉ [' ', '\t', '\r', '\n', '!', '"', '\'', '/', ':', '=', '>', '?'] := by
  intro hmem
  revert h
  revert c
  decide

theorem isXmlName_eq_true {name : String} (h : isXmlName name = true) : name ≠ "" ∧
    ∀ c ∈ name.toList, XmlName.within (XmlName.startRanges ++ XmlName.furtherRanges) c = true := by
  unfold isXmlName at h
  split at h
  · cases h
  · rename_i first rest hname
    obtain ⟨hfirst, hrest⟩ := Bool.and_eq_true_iff.mp h
    refine ⟨fun hempty => ?_, fun c hc => ?_⟩
    · rw [hempty] at hname
      cases hname
    · rw [hname] at hc
      rcases List.mem_cons.mp hc with rfl | hc
      · rw [XmlName.within, List.any_append, Bool.or_eq_true]
        exact .inl hfirst
      · exact List.all_eq_true.mp hrest c hc

theorem isPlainName_of_isXmlName {name : String} (h : isXmlName name = true) :
    IsPlainName name := by
  obtain ⟨hne, hwithin⟩ := isXmlName_eq_true h
  have hspecial : ∀ b ∈ ([0x20, 0x09, 0x0D, 0x0A, 0x21, 0x22, 0x27, 0x2F, 0x3A, 0x3D, 0x3E, 0x3F] :
      Bytes), b < 0x80 ∧ Char.ofNat b.toNat ∈
        [' ', '\t', '\r', '\n', '!', '"', '\'', '/', ':', '=', '>', '?'] := by
    decide
  refine ⟨hne, fun b hmem => ?_⟩
  have hb : b ∉ ([0x20, 0x09, 0x0D, 0x0A, 0x21, 0x22, 0x27, 0x2F, 0x3A, 0x3D, 0x3E, 0x3F] :
      Bytes) := by
    intro hlist
    obtain ⟨hsmall, hchar⟩ := hspecial b hlist
    have hc := hwithin _ ((Utf8.mem_encode_iff hsmall _).mp hmem)
    exact XmlName.notMem_of_within hc hchar
  simp only [List.mem_cons, not_or] at hb
  simp [Markup.isSpace, hb]

/-! ## Trees -/

/-- All characters of a text are in a character set. -/
def Encodable (charset : Charset) (text : String) : Prop :=
  ∀ c ∈ text.toList, charset.canEncode c = true

/-- The names in the tag of an element are names of XML that a character set has, no attribute
occurs twice or declares a namespace, and the namespace is of some kind. -/
@[mk_iff]
structure Element.TagPresentable (charset : Charset) (space : String → Prop) (element : Element) :
    Prop where
  name : isXmlName element.name = true ∧ Encodable charset element.name
  keys : ∀ first ∈ element.attributes, isXmlName first.name = true ∧
    Encodable charset first.name ∧ first.name ≠ "xmlns"
  distinct : (element.attributes.map (·.name)).Nodup
  uri : ∀ declared, element.uri = some declared → space declared

/-- All tags of a tree are like that. -/
def Element.Presentable (charset : Charset) (space : String → Prop) (root : Element) : Prop :=
  root.Every (Element.TagPresentable charset space)

/-- A character set has the names in the tag of an element. -/
def Element.TagEncodable (charset : Charset) (element : Element) : Prop :=
  Encodable charset element.name ∧ ∀ first ∈ element.attributes, Encodable charset first.name

/-- A character set has the names in a tree. -/
def Element.NamesEncodable (charset : Charset) (root : Element) : Prop :=
  root.Every (Element.TagEncodable charset)

mutual

/-- The names of elements and attributes in a tree, in the order in which they are written. -/
def Element.names : Element → List String
  | ⟨name, _, attributes, children⟩ => name :: (attributes.map (·.name) ++ Node.namesAll children)

def Node.namesAll : List Node → List String
  | [] => []
  | .element child :: rest => child.names ++ Node.namesAll rest
  | .text _ :: rest => Node.namesAll rest
  | .comment _ :: rest => Node.namesAll rest

end

section Presentable
variable {charset : Charset} {space : String → Prop}

mutual

theorem plainNames_of_presentable :
    ∀ {root : Element}, root.Presentable charset space → root.PlainNames
  | ⟨_, _, _, _⟩, h => by
    rw [Element.Presentable, Element.Every] at h
    obtain ⟨htag, hchildren⟩ := h
    rw [Element.PlainNames]
    exact ⟨isPlainName_of_isXmlName htag.name.1, fun first hfirst =>
        ⟨isPlainName_of_isXmlName (htag.keys first hfirst).1, (htag.keys first hfirst).2.2⟩,
      htag.distinct, plainNamesAll_of_presentable hchildren⟩

theorem plainNamesAll_of_presentable : ∀ {nodes : List Node},
    Node.EveryAll (Element.TagPresentable charset space) nodes → Node.PlainNamesAll nodes
  | [], _ => by
    rw [Node.PlainNamesAll]
    trivial
  | .element child :: rest, h => by
    rw [Node.EveryAll] at h
    rw [Node.PlainNamesAll]
    exact ⟨plainNames_of_presentable h.1, plainNamesAll_of_presentable h.2⟩
  | .text content :: rest, h => by
    rw [Node.EveryAll] at h
    rw [Node.PlainNamesAll]
    exact plainNamesAll_of_presentable h
  | .comment content :: rest, h => by
    rw [Node.EveryAll] at h
    rw [Node.PlainNamesAll]
    exact plainNamesAll_of_presentable h

end

theorem readable_of_presentable {root : Element} (h : root.Presentable charset space) :
    root.Readable :=
  readable_of_plain root (plainNames_of_presentable h)

/-! ## Writing -/

theorem namesEncodable_of_presentable {root : Element} (h : root.Presentable charset space) :
    root.NamesEncodable charset :=
  h.imp fun _ tag => ⟨tag.name.2, fun first hfirst => (tag.keys first hfirst).2.1⟩

theorem encodable_utf8 (text : String) : Encodable .utf8 text := fun _ _ => rfl

theorem namesEncodable_utf8 (root : Element) : root.NamesEncodable .utf8 :=
  Element.every_of_forall (fun _ => ⟨encodable_utf8 _, fun _ _ => encodable_utf8 _⟩) root

theorem checkName_eq_ok_iff {name : String} :
    checkName charset name = .ok () ↔ Encodable charset name := by
  unfold checkName
  split
  · rename_i hall
    exact iff_of_true rfl (List.all_eq_true.mp hall)
  · rename_i hall
    exact iff_of_false nofun fun h => hall (List.all_eq_true.mpr h)

end Presentable

/-! ## Names that cannot be written -/

section Names
variable {charset : Charset} {α β : Type} {names names' : List String}

mutual

theorem namesEncodable_iff : ∀ {root : Element},
    root.NamesEncodable charset ↔ ∀ name ∈ root.names, Encodable charset name
  | ⟨name, uri, list, children⟩ => by
    rw [Element.NamesEncodable, Element.every_iff, namesEncodableAll_iff, Element.names,
      List.forall_mem_cons, List.forall_mem_append, List.forall_mem_map, ← and_assoc]
    rfl

theorem namesEncodableAll_iff : ∀ {nodes : List Node},
    Node.EveryAll (Element.TagEncodable charset) nodes ↔
      ∀ name ∈ Node.namesAll nodes, Encodable charset name
  | [] => by simp [Node.EveryAll, Node.namesAll]
  | .element child :: rest => by
    rw [Node.everyAll_element_iff, namesEncodableAll_iff, Node.namesAll, List.forall_mem_append]
    exact and_congr_left' namesEncodable_iff
  | .text content :: rest => by
    rw [Node.everyAll_text_iff, namesEncodableAll_iff, Node.namesAll]
  | .comment content :: rest => by
    rw [Node.everyAll_comment_iff, namesEncodableAll_iff, Node.namesAll]

end

/-- The outcome of writing something with some names: the first of them that the character set lacks
is the error. -/
def Checked (charset : Charset) (names : List String) (result : Except Error α) : Prop :=
  match names.find? fun name => !name.toList.all charset.canEncode with
  | none => ∃ value, result = .ok value
  | some name => result = .error (.decoding (.unwritableName name charset))

theorem checked_ok (value : α) : Checked charset [] (.ok value) := ⟨value, rfl⟩

theorem checked_checkName (name : String) : Checked charset [name] (checkName charset name) := by
  unfold Checked checkName
  cases hname : name.toList.all charset.canEncode with
  | true =>
    rw [List.find?_cons_of_neg (by simp [hname])]
    exact ⟨(), rfl⟩
  | false =>
    rw [List.find?_cons_of_pos (by simp [hname])]
    rfl

theorem Checked.bind {first : Except Error α} {next : α → Except Error β}
    (h : Checked charset names first) (h' : ∀ value, Checked charset names' (next value)) :
    Checked charset (names ++ names') (first >>= next) := by
  unfold Checked at h ⊢
  rw [List.find?_append]
  cases hfound : names.find? fun name => !name.toList.all charset.canEncode with
  | none =>
    rw [hfound] at h
    obtain ⟨value, rfl⟩ := h
    exact h' value
  | some name =>
    rw [hfound] at h
    dsimp only at h
    rw [h]
    rfl

theorem Checked.map {first : Except Error α} (h : Checked charset names first) (f : α → β) :
    Checked charset names (first >>= fun value => pure (f value)) := by
  have hbind := h.bind fun value => checked_ok (f value)
  rwa [List.append_nil] at hbind

theorem Checked.exists_ok {result : Except Error α} (h : Checked charset names result)
    (hnames : ∀ name ∈ names, Encodable charset name) : ∃ value, result = .ok value := by
  have hnone : (names.find? fun name => !name.toList.all charset.canEncode) = none := by
    rw [List.find?_eq_none]
    intro name hmem
    simp [List.all_eq_true.mpr (hnames name hmem)]
  unfold Checked at h
  rwa [hnone] at h

theorem Checked.exists_error {result : Except Error α} (h : Checked charset names result)
    (hnames : ¬ ∀ name ∈ names, Encodable charset name) : ∃ name ∈ names,
      ¬ Encodable charset name ∧ result = .error (.decoding (.unwritableName name charset)) := by
  unfold Checked at h
  split at h
  · rename_i hnone
    refine absurd (fun name hmem => ?_) hnames
    have hall := List.find?_eq_none.mp hnone name hmem
    exact List.all_eq_true.mp (by simpa only [Bool.not_eq_true, Bool.not_eq_false'] using hall)
  · rename_i name hfound
    refine ⟨name, List.mem_of_find?_eq_some hfound, fun hname => ?_, h⟩
    have hforeign := List.find?_some hfound
    rw [List.all_eq_true.mpr hname] at hforeign
    cases hforeign

theorem checked_attributes (list : List Attribute) :
    Checked charset (list.map (·.name)) (Writing.attributes charset list) := by
  induction list with
  | nil => exact checked_ok ""
  | cons first rest ih => exact (checked_checkName first.name).bind fun _ => ih.map _

mutual

theorem checked_element : ∀ (scope : Option String) (layout : Option Layout) (root : Element),
    Checked charset root.names (element charset scope layout root)
  | scope, layout, ⟨name, uri, list, children⟩ => by
    rw [element, Element.names, ← List.singleton_append]
    refine (checked_checkName name).bind fun _ => (checked_attributes list).bind fun _ => ?_
    dsimp only
    split
    · rename_i hempty
      rw [List.isEmpty_iff.mp hempty]
      exact checked_ok _
    · exact (checked_content _ _ children).map _

theorem checked_content : ∀ (scope : Option String) (layout : Option Layout) (nodes : List Node),
    Checked charset (Node.namesAll nodes) (content charset scope layout nodes)
  | _, _, [] => by
    rw [content]
    exact checked_ok ""
  | scope, layout, .element child :: rest => by
    rw [content, Node.namesAll]
    exact (checked_element scope layout child).bind fun _ => (checked_content scope layout rest).map _
  | scope, layout, .text data :: rest => by
    rw [content, Node.namesAll]
    exact (checked_content scope layout rest).map _
  | scope, layout, .comment data :: rest => by
    rw [content, Node.namesAll]
    exact (checked_content scope layout rest).map _

end

/-- A document is written, or the first name that the character set lacks is the error. -/
theorem checked_text (options : DecodeOptions) (document : Document) :
    Checked options.charset document.root.names (Writing.text options document) :=
  (checked_element none (Layout.of options) document.root).map _

end Names

end BinaryXml
