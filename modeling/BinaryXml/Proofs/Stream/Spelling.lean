import BinaryXml.Proofs.Stream.Writable

/-! # Documents without zero characters

* `Spellable`: no string of an element has a zero character, whatever the tokens of the language.
* `writable_of_spellable`, `spellable_of_writable`: such an element can be written, and there is no
  other one if no token stands for a string with a zero character.
* `spellable_readBack`: nor has the document that is read.
-/

namespace BinaryXml.Encoding

open Grammar

set_option autoImplicit false

/-! ## Elements without zero characters -/

mutual

/-- No name, value or text of an element has a zero character. -/
def Spellable : Element → Prop
  | ⟨name, _, attributes, children⟩ => '\x00' ∉ name.toList ∧
      (∀ first ∈ attributes, '\x00' ∉ first.name.toList ∧ '\x00' ∉ first.value.toList) ∧
        SpellableAll children

def SpellableAll : List Node → Prop
  | [] => True
  | .element child :: rest => Spellable child ∧ SpellableAll rest
  | .text content :: rest => '\x00' ∉ content.toList ∧ SpellableAll rest
  | .comment _ :: rest => SpellableAll rest

end

/-- The strings in the tables of a language have no U+0000. -/
structure CleanLanguage (language : Language) : Prop where
  tags : ∀ codePage ∈ language.pages, ∀ tag ∈ codePage.tags, '\x00' ∉ tag.name.toList
  starts : ∀ entry ∈ language.attributeStarts,
    '\x00' ∉ entry.name.toList ∧ '\x00' ∉ entry.valueStart.toList
  values : ∀ entry ∈ language.attributeValues, '\x00' ∉ entry.value.toList

/-! ## What can be written -/

section Writable
variable {language : Language}

theorem valueWritable_of_clean {page : UInt8} {value : String} (h : '\x00' ∉ value.toList) :
    ValueWritable language page value :=
  fun _ => h

theorem attributeWritable_of_clean {page : UInt8} {first : Attribute}
    (hname : '\x00' ∉ first.name.toList) (hvalue : '\x00' ∉ first.value.toList) :
    AttributeWritable language page first := by
  obtain ⟨name, value⟩ := first
  rw [AttributeWritable]
  cases language.attributeStart? name value page with
  | some entry =>
    refine valueWritable_of_clean ?_
    rw [AttributeStart.remainder, String.toList_ofList]
    exact fun hmem => hvalue (List.mem_of_mem_drop hmem)
  | none => exact ⟨hname, valueWritable_of_clean hvalue⟩

theorem listWritable_of_clean {page : UInt8} {list : List Attribute}
    (h : ∀ first ∈ list, '\x00' ∉ first.name.toList ∧ '\x00' ∉ first.value.toList) :
    ListWritable language page list := by
  induction list generalizing page with
  | nil => trivial
  | cons first rest ih =>
    obtain ⟨⟨hname, hvalue⟩, hrest⟩ := List.forall_mem_cons.mp h
    exact ⟨attributeWritable_of_clean hname hvalue, ih hrest⟩

mutual

/-- An element without zero characters can be written on any code pages. -/
theorem writable_of_spellable : ∀ (root : Element) (pages : Pages), Spellable root →
    Writable language pages root
  | ⟨_, _, _, children⟩, _, h => by
    rw [Spellable] at h
    obtain ⟨hname, hlist, hchildren⟩ := h
    rw [Writable]
    exact ⟨fun _ => hname, listWritable_of_clean hlist,
      writableAll_of_spellable children _ hchildren⟩

theorem writableAll_of_spellable : ∀ (nodes : List Node) (pages : Pages), SpellableAll nodes →
    WritableAll language pages nodes
  | [], _, _ => trivial
  | .element child :: rest, pages, h => by
    rw [SpellableAll] at h
    exact writableAll_element_iff.mpr ⟨writable_of_spellable child pages h.1,
      writableAll_of_spellable rest _ h.2⟩
  | .text content :: rest, pages, h => by
    rw [SpellableAll] at h
    exact writableAll_text_iff.mpr ⟨h.1, writableAll_of_spellable rest pages h.2⟩
  | .comment _ :: rest, pages, h => by
    rw [SpellableAll] at h
    exact writableAll_comment_iff.mpr (writableAll_of_spellable rest pages h)

end

/-! ## Tokens without zero characters -/

theorem clean_of_valueWritable (clean : CleanLanguage language) {page : UInt8} {value : String}
    (h : ValueWritable language page value) : '\x00' ∉ value.toList := by
  cases hentry : language.attributeValue? value page with
  | none => exact h hentry
  | some entry =>
    obtain ⟨hmem, rfl⟩ := Language.attributeValue?_eq_some hentry
    exact clean.values entry hmem

theorem clean_of_attributeWritable (clean : CleanLanguage language) {page : UInt8}
    {first : Attribute} (h : AttributeWritable language page first) :
    '\x00' ∉ first.name.toList ∧ '\x00' ∉ first.value.toList := by
  obtain ⟨name, value⟩ := first
  rw [AttributeWritable] at h
  cases hentry : language.attributeStart? name value page with
  | none =>
    rw [hentry] at h
    exact ⟨h.1, clean_of_valueWritable clean h.2⟩
  | some entry =>
    rw [hentry] at h
    obtain ⟨hmem, hcovers⟩ := Language.attributeStart?_eq_some hentry
    obtain ⟨hname, hwhole⟩ := Language.append_remainder hcovers
    obtain ⟨hcleanName, hcleanStart⟩ := clean.starts entry hmem
    rw [← hname, ← hwhole, String.toList_append, List.mem_append]
    exact ⟨hcleanName, not_or.mpr ⟨hcleanStart, clean_of_valueWritable clean h⟩⟩

theorem clean_of_listWritable (clean : CleanLanguage language) {page : UInt8}
    {list : List Attribute} (h : ListWritable language page list) :
    ∀ first ∈ list, '\x00' ∉ first.name.toList ∧ '\x00' ∉ first.value.toList := by
  induction list generalizing page with
  | nil => simp
  | cons first rest ih =>
    exact List.forall_mem_cons.mpr ⟨clean_of_attributeWritable clean h.1, ih h.2⟩

mutual

theorem spellable_of_writable (clean : CleanLanguage language) : ∀ (root : Element) (pages : Pages),
    Writable language pages root → Spellable root
  | ⟨name, uri, _, children⟩, pages, h => by
    rw [Writable] at h
    obtain ⟨hname, hlist, hchildren⟩ := h
    rw [Spellable]
    refine ⟨?_, clean_of_listWritable clean hlist, spellableAll_of_writable clean children _ hchildren⟩
    cases hcode : language.tagCode? uri name pages.tags with
    | none => exact hname hcode
    | some code =>
      obtain ⟨codePage, hpage, hmem⟩ := Language.exists_of_tagCode? hcode
      exact clean.tags codePage (Language.codePage?_eq_some hpage).1 _ hmem

theorem spellableAll_of_writable (clean : CleanLanguage language) :
    ∀ (nodes : List Node) (pages : Pages), WritableAll language pages nodes → SpellableAll nodes
  | [], _, _ => trivial
  | .element child :: rest, pages, h => by
    obtain ⟨hchild, hrest⟩ := writableAll_element_iff.mp h
    rw [SpellableAll]
    exact ⟨spellable_of_writable clean child pages hchild,
      spellableAll_of_writable clean rest _ hrest⟩
  | .text content :: rest, pages, h => by
    obtain ⟨hcontent, hrest⟩ := writableAll_text_iff.mp h
    rw [SpellableAll]
    exact ⟨hcontent, spellableAll_of_writable clean rest pages hrest⟩
  | .comment _ :: rest, pages, h => by
    rw [SpellableAll]
    exact spellableAll_of_writable clean rest pages (writableAll_comment_iff.mp h)

end

end Writable

/-! ## Documents that are read -/

theorem spellableAll_append {front back : List Node} :
    SpellableAll (front ++ back) ↔ SpellableAll front ∧ SpellableAll back := by
  induction front with
  | nil => simp [SpellableAll]
  | cons node rest ih => cases node <;> simp [SpellableAll, ih, and_assoc]

theorem spellableAll_texts {run : List String} :
    SpellableAll (run.map .text) ↔ '\x00' ∉ (String.join run).toList := by
  induction run with
  | nil => simp [SpellableAll, String.join]
  | cons text run ih =>
    rw [List.map_cons, SpellableAll, ih, String.join_cons, String.toList_append, List.mem_append,
      not_or]

/-- No zero character is lost among the children, as it is not blank. -/
theorem spellableAll_iff_of_children {whitespace : Whitespace} {pieces children : List Node}
    (made : Grammar.Children whitespace pieces children) :
    SpellableAll children ↔ SpellableAll pieces := by
  induction made with
  | nil => exact Iff.rfl
  | @node node _ _ notText _ ih =>
    cases node with
    | element child => rw [SpellableAll, SpellableAll, ih]
    | text content => exact absurd rfl (notText content)
    | comment content => rw [SpellableAll, SpellableAll, ih]
  | @texts run _ _ _ _ _ ih =>
    have hzero := @Whitespace.mem_apply_iff whitespace (String.join run) '\x00' (by decide)
    rw [spellableAll_append, spellableAll_append, ih, spellableAll_texts, spellableAll_texts,
      ← hzero]
    cases hkept : whitespace.apply (String.join run) <;> simp [String.join]

theorem spellableAll_arrange {whitespace : Whitespace} {pieces : List Node} :
    SpellableAll (Decoding.arrange whitespace pieces) ↔ SpellableAll pieces :=
  spellableAll_iff_of_children (Decoding.children_iff.mpr rfl)

mutual

theorem spellable_readBack (language : Language) (whitespace : Whitespace) (page : UInt8) :
    ∀ root : Element, Spellable root → Spellable (readBack language whitespace page root).1
  | ⟨_, _, _, children⟩, h => by
    rw [Spellable] at h
    rw [readBack, Spellable]
    exact ⟨h.1, h.2.1, spellableAll_arrange.mpr
      (spellableAll_readBackAll language whitespace _ children h.2.2)⟩

theorem spellableAll_readBackAll (language : Language) (whitespace : Whitespace) (page : UInt8) :
    ∀ nodes : List Node, SpellableAll nodes →
      SpellableAll (readBackAll language whitespace page nodes).1
  | [], h => h
  | .element child :: rest, h => by
    rw [SpellableAll] at h
    rw [readBackAll, SpellableAll]
    exact ⟨spellable_readBack language whitespace page child h.1,
      spellableAll_readBackAll language whitespace _ rest h.2⟩
  | .text content :: rest, h => by
    rw [SpellableAll] at h
    rw [readBackAll, SpellableAll]
    exact ⟨h.1, spellableAll_readBackAll language whitespace page rest h.2⟩
  | .comment content :: rest, h => by
    rw [SpellableAll] at h
    rw [readBackAll]
    exact spellableAll_readBackAll language whitespace page rest h

end

end BinaryXml.Encoding

namespace BinaryXml

/-- The bytes that a tag is kept in are at hand without reading its characters. -/
theorem ActiveSync.cleanLanguage : Encoding.CleanLanguage ActiveSync.language where
  tags := by
    have hall : ∀ codePage ∈ ActiveSync.language.pages, ∀ tag ∈ codePage.tags,
        0x00 ∉ tag.name.toByteArray.data.toList := by
      decide +kernel
    intro codePage hpage tag htag hmem
    refine hall codePage hpage tag htag ?_
    rw [← Utf8.encode_eq_toByteArray]
    exact (Utf8.mem_encode_iff (by decide) _).mpr hmem
  starts := by simp [ActiveSync.language]
  values := by simp [ActiveSync.language]

end BinaryXml
