import BinaryXml.Proofs.Stream.Production
import BinaryXml.Proofs.Text.Whitespace

/-! # Strings that can be written

A string ends at its first zero character in a stream, unless a token stands for it. Which tokens
there are depends on the current code pages, so these are followed through the document.

* `pagesAfter`: the code pages that are current behind an element.
* `Writable`: a string of an element has no zero character, or a token stands for it.
* `writable_stripped`: what is left out of a document is never the reason why it is not written.
-/

namespace BinaryXml

open Grammar

set_option autoImplicit false

/-! ## Opaque data -/

theorem Base64.symbol_ne_zero (value : Nat) : Base64.symbol value ≠ '\x00' := by
  by_cases hlt : value < 62
  · revert value
    decide
  · unfold Base64.symbol
    rw [if_neg (by omega), if_neg (by omega), if_neg hlt]
    split <;> decide

theorem Base64.zero_notMem_encode : ∀ data : Bytes, '\x00' ∉ Base64.encode data
  | [] => by simp [Base64.encode]
  | [a] => by simp [Base64.encode, (Base64.symbol_ne_zero _).symm]
  | [a, b] => by simp [Base64.encode, (Base64.symbol_ne_zero _).symm]
  | a :: b :: c :: rest => by
    simp [Base64.encode, (Base64.symbol_ne_zero _).symm, Base64.zero_notMem_encode rest]

theorem Hex.zero_notMem_encode (data : Bytes) : '\x00' ∉ Hex.encode data := by
  have hdigit : ∀ value < 16, Numeral.digit value ≠ '\x00' := by decide
  intro hmem
  obtain ⟨b, -, hb⟩ := List.mem_flatMap.mp hmem
  have hlt := b.toNat_lt
  have hhigh := hdigit (b.toNat / 16) (by omega)
  have hlow := hdigit (b.toNat % 16) (by omega)
  simp [hhigh.symm, hlow.symm] at hb

/-- The text of opaque data has no zero character. -/
theorem OpaqueEncoding.zero_notMem_encode (encoding : OpaqueEncoding) (data : Bytes) :
    '\x00' ∉ (encoding.encode data).toList := by
  cases encoding with
  | base64 =>
    rw [OpaqueEncoding.encode, String.toList_ofList]
    exact Base64.zero_notMem_encode data
  | hex =>
    rw [OpaqueEncoding.encode, String.toList_ofList]
    exact Hex.zero_notMem_encode data

namespace Encoding

section Definitions
variable (language : Language)

/-! ## Code pages -/

/-- The code page of attributes that is current behind a value. -/
def pageAfterValue (page : UInt8) (value : String) : UInt8 :=
  if value.isEmpty then page
  else match language.attributeValue? value page with
    | some entry => entry.page
    | none => page

def pageAfterAttribute (page : UInt8) : Attribute → UInt8
  | ⟨name, value⟩ =>
    match language.attributeStart? name value page with
    | some entry => pageAfterValue language entry.page (entry.remainder value)
    | none => pageAfterValue language page value

def pageAfterList (page : UInt8) : List Attribute → UInt8
  | [] => page
  | first :: rest => pageAfterList (pageAfterAttribute language page first) rest

mutual

/-- The code pages that are current behind an element. -/
def pagesAfter (pages : Pages) : Element → Pages
  | ⟨name, uri, attributes, children⟩ =>
    pagesAfterAll ⟨pageAfter pages.tags (language.tagCode? uri name pages.tags),
      pageAfterList language pages.attributes attributes⟩ children

def pagesAfterAll (pages : Pages) : List Node → Pages
  | [] => pages
  | .element child :: rest => pagesAfterAll (pagesAfter pages child) rest
  | .text _ :: rest => pagesAfterAll pages rest
  | .comment _ :: rest => pagesAfterAll pages rest

end

/-! ## Strings -/

/-- A token stands for a value, or the value has no zero character. -/
def ValueWritable (page : UInt8) (value : String) : Prop :=
  language.attributeValue? value page = none → '\x00' ∉ value.toList

/-- The same for an attribute. A token may stand for its name and the front of its value. -/
def AttributeWritable (page : UInt8) : Attribute → Prop
  | ⟨name, value⟩ =>
    match language.attributeStart? name value page with
    | some entry => ValueWritable language entry.page (entry.remainder value)
    | none => '\x00' ∉ name.toList ∧ ValueWritable language page value

/-- The same for attributes, each on the code page behind the others. -/
def ListWritable (page : UInt8) : List Attribute → Prop
  | [] => True
  | first :: rest => AttributeWritable language page first ∧
      ListWritable (pageAfterAttribute language page first) rest

mutual

/-- A token stands for a string of an element, or the string has no zero character. -/
def Writable (pages : Pages) : Element → Prop
  | ⟨name, uri, attributes, children⟩ =>
    let code? := language.tagCode? uri name pages.tags
    (code? = none → '\x00' ∉ name.toList) ∧ ListWritable language pages.attributes attributes ∧
      WritableAll ⟨pageAfter pages.tags code?, pageAfterList language pages.attributes attributes⟩
        children

/-- The same for nodes. There are no tokens for texts. -/
def WritableAll (pages : Pages) : List Node → Prop
  | [] => True
  | .element child :: rest =>
    Writable pages child ∧ WritableAll (pagesAfter language pages child) rest
  | .text content :: rest => '\x00' ∉ content.toList ∧ WritableAll pages rest
  | .comment _ :: rest => WritableAll pages rest

end

end Definitions

section Writable
variable {language : Language}

theorem pagesAfter_eq (pages : Pages) (name : String) (uri : Option String) (list : List Attribute)
    (children : List Node) : pagesAfter language pages ⟨name, uri, list, children⟩ =
      pagesAfterAll language ⟨pageAfter pages.tags (language.tagCode? uri name pages.tags),
        pageAfterList language pages.attributes list⟩ children := rfl

theorem pagesAfterAll_element (pages : Pages) (child : Element) (rest : List Node) :
    pagesAfterAll language pages (.element child :: rest) =
      pagesAfterAll language (pagesAfter language pages child) rest := rfl

theorem writableAll_element_iff {pages : Pages} {child : Element} {rest : List Node} :
    WritableAll language pages (.element child :: rest) ↔
      Writable language pages child ∧ WritableAll language (pagesAfter language pages child) rest :=
  Iff.rfl

theorem writableAll_text_iff {pages : Pages} {content : String} {rest : List Node} :
    WritableAll language pages (.text content :: rest) ↔
      '\x00' ∉ content.toList ∧ WritableAll language pages rest := Iff.rfl

theorem writableAll_comment_iff {pages : Pages} {content : String} {rest : List Node} :
    WritableAll language pages (.comment content :: rest) ↔ WritableAll language pages rest :=
  Iff.rfl

/-! ## What is left out -/

mutual

theorem pagesAfter_stripped (whitespace : Whitespace) : ∀ (root : Element) (pages : Pages),
    pagesAfter language pages (root.stripped whitespace) = pagesAfter language pages root
  | ⟨_, _, _, children⟩, _ => by
    rw [Element.stripped, pagesAfter, pagesAfter, pagesAfterAll_strippedAll whitespace children]

theorem pagesAfterAll_strippedAll (whitespace : Whitespace) : ∀ (nodes : List Node) (pages : Pages),
    pagesAfterAll language pages (Node.strippedAll whitespace nodes) =
      pagesAfterAll language pages nodes
  | [], _ => rfl
  | .element child :: rest, pages => by
    rw [Node.strippedAll, pagesAfterAll, pagesAfterAll, pagesAfter_stripped whitespace child,
      pagesAfterAll_strippedAll whitespace rest]
  | .text content :: rest, pages => by
    rw [Node.strippedAll]
    split <;> simp only [pagesAfterAll, pagesAfterAll_strippedAll whitespace rest]
  | .comment _ :: rest, pages => by
    rw [Node.strippedAll, pagesAfterAll, pagesAfterAll_strippedAll whitespace rest]

end

mutual

theorem writable_stripped (whitespace : Whitespace) : ∀ (root : Element) (pages : Pages),
    Writable language pages (root.stripped whitespace) ↔ Writable language pages root
  | ⟨_, _, _, children⟩, _ => by
    rw [Element.stripped, Writable, Writable]
    simp only [writableAll_strippedAll whitespace children]

theorem writableAll_strippedAll (whitespace : Whitespace) : ∀ (nodes : List Node) (pages : Pages),
    WritableAll language pages (Node.strippedAll whitespace nodes) ↔
      WritableAll language pages nodes
  | [], _ => Iff.rfl
  | .element child :: rest, pages => by
    rw [Node.strippedAll, writableAll_element_iff, writableAll_element_iff,
      writable_stripped whitespace child, pagesAfter_stripped, writableAll_strippedAll whitespace rest]
  | .text content :: rest, pages => by
    have hzero := @Whitespace.mem_apply_iff whitespace content '\x00' (by decide)
    rw [Node.strippedAll, writableAll_text_iff, ← writableAll_strippedAll whitespace rest, ← hzero]
    cases hkept : whitespace.apply content with
    | none => simp
    | some kept => simp [writableAll_text_iff]
  | .comment _ :: rest, pages => by
    rw [Node.strippedAll, writableAll_comment_iff, writableAll_strippedAll whitespace rest]

end

end Writable

end Encoding

end BinaryXml
