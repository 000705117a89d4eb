import BinaryXml.Proofs.Xml.CharacterData

/-! # References between tags and in attribute values

* `Slot.TakesReference`: what is read where a reference is put between the tags of an element, or
  in the value of one of its attributes.
* `takesReferences`: in every element of every document, content takes the references of XML, those
  with a plus sign and zero, and an attribute value takes the references of XML.
-/

namespace BinaryXml

open Parsing

set_option autoImplicit false

/-! ## References inside of attribute values -/

namespace Reference

/-- What is resolved in front does not matter to what stands behind it. -/
theorem unescapeFrom_append {state : Option (List Char)} {front chars : List Char}
    (h : unescapeFrom state front = some chars) (rest : List Char) :
    unescapeFrom state (front ++ rest) = (chars ++ ·) <$> unescapeFrom none rest := by
  -- Resolving ends outside of references, so that the rest begins there; inside of one it goes on
  -- with the name as it stands.
  induction front generalizing state chars with
  | nil =>
    cases state with
    | none =>
      cases h
      simp
    | some name => cases h
  | cons c front ih =>
    cases state with
    | none =>
      rw [unescapeFrom] at h
      rw [List.cons_append, unescapeFrom]
      split at h
      · rename_i hamp
        rw [if_pos hamp]
        exact ih h
      · rename_i hamp
        rw [if_neg hamp]
        obtain ⟨others, hothers, rfl⟩ := Option.map_eq_some_iff.mp h
        rw [ih hothers]
        cases unescapeFrom none rest <;> rfl
    | some name =>
      rw [unescapeFrom] at h
      rw [List.cons_append, unescapeFrom]
      split at h
      · rename_i hend
        rw [if_pos hend]
        obtain ⟨resolved, hresolved, h⟩ := Option.bind_eq_some_iff.mp h
        obtain ⟨others, hothers, h⟩ := Option.bind_eq_some_iff.mp h
        cases h
        rw [hresolved, ih hothers]
        cases unescapeFrom none rest <;> rfl
      · rename_i hend
        rw [if_neg hend]
        split at h
        · cases h
        · rename_i hamp
          rw [if_neg hamp]
          exact ih h

/-- A reference among other characters of a value is resolved if an attribute value takes it. -/
theorem unescape_eq_some_iff {name front back chars others : List Char} {resolved : String}
    (plain : ∀ d ∈ name, d ≠ ';' ∧ d ≠ '&') (hfront : unescapeFrom none front = some chars)
    (hback : unescapeFrom none back = some others) :
    unescape (String.ofList (front ++ '&' :: (name ++ ';' :: back))) = some resolved ↔
      ∃ c, inAttribute? name = some c ∧ resolved = String.ofList (chars ++ c :: others) := by
  rw [unescape, String.toList_ofList, unescapeFrom_append hfront,
    Writing.unescapeFrom_reference plain, hback]
  cases inAttribute? name with
  | none => simp
  | some c => simp [eq_comm]

end Reference

/-! ## References in every element -/

section Document
variable {language : Language} {maxDepth : Nat} {text : Bytes} {document : Document}
  {path : List Nat} {element : Element}

/-- A reference is put between the tags of the element at the end of a path, among other character
data, or in the value of a new attribute of it. -/
structure Slot.TakesReference (language : Language) (maxDepth : Nat) (document : Document)
    (path : List Nat) (element : Element) (slot : Slot) (name : List Char) : Prop where
  content : ∀ (before behind : List Piece) (result : Document),
    parseDocument language maxDepth { slot with
        inner := Piece.bytes before ++
          (Utf8.encodeChars ('&' :: (name ++ [';'])) ++ Piece.bytes behind) }.text = .ok result ↔
      ∃ c, Reference.inContent? name = some c ∧
        result = ⟨document.root.update (fun _ => { element with
          children := [.text (String.ofList (before.flatMap Piece.chars ++
            c :: behind.flatMap Piece.chars))] }) path⟩
  value : ∀ (key : String) (front back chars others : List Char) (result : Document),
    IsPlainName key → key ≠ "xmlns" → key ∉ element.attributes.map (·.name) →
    (∀ d ∈ front ++ back, d ∉ ['"', '\'', '>']) →
    Reference.unescapeFrom none front = some chars →
    Reference.unescapeFrom none back = some others →
    (parseDocument language maxDepth { slot with
        attributes := (Slot.attributeOf key
          (String.ofList (front ++ '&' :: (name ++ ';' :: back)))).bytes ++ slot.attributes }.text =
            .ok result ↔
      ∃ c, Reference.inAttribute? name = some c ∧
        result = ⟨document.root.update (fun _ => { element with
          attributes := ⟨key, String.ofList (chars ++ c :: others)⟩ :: element.attributes }) path⟩)

theorem Slot.Site.parse_reference {scope inner : Scope} {depth : Nat} {head : Element}
    {found : List Node} {put : Element → Document} {slot : Slot}
    (site : slot.Site ⟨language, maxDepth⟩ scope inner depth head found
      (fun text document => parseDocument language maxDepth text = .ok document) put)
    {name : List Char} (plain : ∀ d ∈ name, d ∉ [';', '&', '<']) (before behind : List Piece)
    (result : Document) :
    parseDocument language maxDepth { slot with
        inner := Piece.bytes before ++
          (Utf8.encodeChars ('&' :: (name ++ [';'])) ++ Piece.bytes behind) }.text = .ok result ↔
      ∃ c, Reference.inContent? name = some c ∧
        result = put { head with
          children := [.text (String.ofList (before.flatMap Piece.chars ++
            c :: behind.flatMap Piece.chars))] } := by
  obtain ⟨texts, hjoin, yields⟩ : ∃ texts,
      String.join texts = String.ofList (before.flatMap Piece.chars) ∧
        Yields ⟨language, maxDepth⟩ inner (depth + 1) ⟨slot.tagName, head.name⟩ (Piece.bytes before)
          (Utf8.encodeChars ('&' :: (name ++ [';'])) ++ (Piece.bytes behind ++ slot.rest)) texts :=
    (Piece.spelled before).yields rfl rfl
  obtain ⟨texts', hjoin', yields'⟩ : ∃ texts,
      String.join texts = String.ofList (behind.flatMap Piece.chars) ∧
        Yields ⟨language, maxDepth⟩ inner (depth + 1) ⟨slot.tagName, head.name⟩
          (Piece.bytes behind) slot.rest texts := (Piece.spelled behind).yields rfl rfl
  have hchildren (c : Char) : Node.coalesce ((texts ++ String.singleton c :: texts').map .text) =
      [.text (String.ofList (before.flatMap Piece.chars ++ c :: behind.flatMap Piece.chars))] := by
    refine Node.coalesce_of_join ?_ (by simp)
    rw [String.join_append, String.join_cons, hjoin, hjoin']
    exact String.toList_inj.mp (by simp)
  refine (site.reads_iff (fun nodes => ∃ c, Reference.inContent? name = some c ∧
    nodes = (texts ++ String.singleton c :: texts').map .text) (fun nodes last => ?_) result).trans ?_
  · rw [List.append_assoc, List.append_assoc, yields nodes last]
    simp only [content_reference_iff plain, yields' _ last, site.shape.content_rest_iff]
    constructor
    · rintro ⟨_, rfl, c, _, hc, rfl, _, rfl, rfl, hlast⟩
      exact ⟨⟨c, hc, by simp⟩, hlast⟩
    · rintro ⟨⟨c, hc, rfl⟩, hlast⟩
      exact ⟨_, by simp, c, _, hc, rfl, [], (List.append_nil _).symm, rfl, hlast⟩
  · constructor
    · rintro ⟨_, ⟨c, hc, rfl⟩, rfl⟩
      exact ⟨c, hc, by rw [close, hchildren]⟩
    · rintro ⟨c, hc, rfl⟩
      exact ⟨_, ⟨c, hc, rfl⟩, by rw [close, hchildren]⟩

/-- The value has neither quotes nor brackets that could end it or the tag. -/
theorem Slot.ne_of_mem_value {name front back : List Char}
    (plain : ∀ d ∈ name, d ∉ [';', '&', '<', '>', '\'', '"'])
    (haround : ∀ d ∈ front ++ back, d ∉ ['"', '\'', '>']) :
    ∀ b ∈ Utf8.encode (String.ofList (front ++ '&' :: (name ++ ';' :: back))),
      b ≠ 0x22 ∧ b ≠ 0x27 ∧ b ≠ 0x3E := by
  have hchars : ∀ d ∈ front ++ '&' :: (name ++ ';' :: back), d ∉ ['"', '\'', '>'] := by
    intro d hd
    simp only [List.mem_append, List.mem_cons] at hd
    rcases hd with hd | rfl | hd | rfl | hd
    · exact haround d (List.mem_append_left _ hd)
    · decide
    · have hspecial := plain d hd
      simp only [List.mem_cons, not_or] at hspecial
      simp [hspecial]
    · decide
    · exact haround d (List.mem_append_right _ hd)
  have hbyte (b : UInt8) (hsmall : b < 0x80)
      (hb : b ∈ Utf8.encode (String.ofList (front ++ '&' :: (name ++ ';' :: back)))) :=
    hchars _ (by
      have hmem := (Utf8.mem_encode_iff hsmall _).mp hb
      rwa [String.toList_ofList] at hmem)
  intro b hb
  refine ⟨?_, ?_, ?_⟩
  · rintro rfl
    exact hbyte _ (by decide) hb (by decide)
  · rintro rfl
    exact hbyte _ (by decide) hb (by decide)
  · rintro rfl
    exact hbyte _ (by decide) hb (by decide)

/-- Attribute values take the references of XML, and content takes those with a plus sign and zero
besides: so it is for every reference in every element of every document. -/
theorem takesReferences (h : parseDocument language maxDepth text = .ok document)
    (hat : document.root.at? path = some element) :
    (∀ name c, Reference.inAttribute? name = some c ↔ Reference.Denotes name c) ∧
    (∀ name c, Reference.inContent? name = some c ↔
      Reference.Denotes name c ∨ Reference.Lax name c) ∧
    (∀ name, Reference.inContent? name = Reference.inAttribute? name ↔
      ∀ c, ¬ Reference.Lax name c) ∧
    (Slot.IsSingle language maxDepth text document path element ∨
      ∃ slot : Slot, slot.text = text ∧ slot.Shape ∧
        ∀ name : List Char, (∀ d ∈ name, d ∉ [';', '&', '<', '>', '\'', '"']) →
          slot.TakesReference language maxDepth document path element name) := by
  refine ⟨fun name c => Reference.inAttribute?_eq_some_iff,
    fun name c => Reference.inContent?_eq_some_iff,
    fun name => Reference.inContent?_eq_inAttribute?_iff, ?_⟩
  rcases Slot.exists_slot h hat with single |
    ⟨scope, inner, depth, head, found, slot, rfl, rfl, site⟩
  · exact .inl single
  refine .inr ⟨slot, rfl, site.shape, fun name plain => ⟨fun before behind result => ?_,
    fun key front back chars others result hkey hxmlns hnew haround hfront hback => ?_⟩⟩
  · refine site.parse_reference (fun d hd hmem => plain d hd ?_) before behind result
    exact List.mem_append_left ['>', '\'', '"'] hmem
  · have hmarks : ∀ d ∈ name, d ≠ ';' ∧ d ≠ '&' := by
      intro d hd
      have hspecial := plain d hd
      simp only [List.mem_cons, not_or] at hspecial
      exact ⟨hspecial.1, hspecial.2.1⟩
    rw [site.reads_attributeOf_iff hkey hxmlns hnew (Slot.ne_of_mem_value plain haround) result]
    simp only [Reference.unescape_eq_some_iff hmarks hfront hback]
    constructor
    · rintro ⟨_, ⟨c, hc, rfl⟩, rfl⟩
      exact ⟨c, hc, rfl⟩
    · rintro ⟨c, hc, rfl⟩
      exact ⟨_, ⟨c, hc, rfl⟩, rfl⟩

/-- A document in which a number has leading zeros, in content and in an attribute value. -/
def referringText : Bytes :=
  Utf8.encode "<a b=\"&#0049;\">&#x031;</a>"

def referringDocument : Document :=
  ⟨⟨"a", none, [⟨"b", "1"⟩], [.text "1"]⟩⟩

theorem takesReferences_referringText :
    parseDocument ActiveSync.language 1 referringText = .ok referringDocument ∧
      ∃ slot : Slot, slot.text = referringText ∧ slot.Shape ∧
        ∀ name : List Char, (∀ d ∈ name, d ∉ [';', '&', '<', '>', '\'', '"']) →
          slot.TakesReference ActiveSync.language 1 referringDocument [] referringDocument.root
            name := by
  have hparse : parseDocument ActiveSync.language 1 referringText = .ok referringDocument := by
    decide +kernel
  refine ⟨hparse, ?_⟩
  rcases (@takesReferences _ _ _ _ [] _ hparse rfl).2.2.2 with single | h
  · cases single.children
  · exact h

/-- Content takes a number with a plus sign, which is no reference and which an attribute value
does not take. -/
theorem parseDocument_signedReference :
    (∀ c, ¬ Reference.Denotes "#+49".toList c) ∧
      Reference.inContent? "#+49".toList = some '1' ∧
      Reference.inAttribute? "#+49".toList = none ∧
      parseDocument ActiveSync.language defaultMaxDepth (Utf8.encode "<a>&#+49;</a>") =
        .ok ⟨⟨"a", none, [], [.text "1"]⟩⟩ ∧
      parseDocument ActiveSync.language defaultMaxDepth (Utf8.encode "<a b=\"&#+49;\"></a>") =
        .error (.malformedXml .grammar) := by
  refine ⟨fun c h => ?_, by decide +kernel, by decide +kernel, by decide +kernel, by decide +kernel⟩
  have hname := Reference.inAttribute?_eq_some_iff.mpr h
  rw [show Reference.inAttribute? "#+49".toList = none by decide +kernel] at hname
  cases hname

end Document

end BinaryXml
