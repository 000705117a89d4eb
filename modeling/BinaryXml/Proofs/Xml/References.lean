import BinaryXml.Proofs.Xml.Escaping

/-! # References as the grammar of XML has them

* `Reference.Number`: a number behind `#`, with the sign that stands in front of its digits.
* `Reference.Denotes`: the references of XML.
* `Reference.Denotes.names`: these stand for the same character in content and in attribute values.
* `Reference.inAttribute?_eq_some_iff`: an attribute value has no others.
* `Reference.inContent?_eq_some_iff`: content has those with a plus sign besides, and zero.
* `Reference.inContent?_eq_inAttribute?_iff`: there is no other difference.
-/

namespace BinaryXml.Reference

set_option autoImplicit false

/-- A number behind `#` in decimal digits, or behind `#x` in hexadecimal ones, with what stands in
front of the digits. -/
inductive Number (sign : List Char) : List Char → Nat → Prop
  | decimal {digits : List Char} {number : Nat} (value : Numeral.Denotes 10 digits number) :
      Number sign ('#' :: (sign ++ digits)) number
  | hexadecimal {digits : List Char} {number : Nat} (value : Numeral.Denotes 16 digits number) :
      Number sign ('#' :: 'x' :: (sign ++ digits)) number

/-- The characters that have names. -/
inductive Predefined : List Char → Char → Prop
  | lt : Predefined ['l', 't'] '<'
  | gt : Predefined ['g', 't'] '>'
  | amp : Predefined ['a', 'm', 'p'] '&'
  | apos : Predefined ['a', 'p', 'o', 's'] '\''
  | quot : Predefined ['q', 'u', 'o', 't'] '"'

/-- The references of XML: a number without a sign that is not zero, or a name. -/
inductive Denotes (name : List Char) (c : Char) : Prop
  | number (value : Number [] name c.toNat) (nonzero : c.toNat ≠ 0)
  | predefined (value : Predefined name c)

/-- A number that only content takes: it has a plus sign, or it is zero. -/
def Lax (name : List Char) (c : Char) : Prop :=
  Number ['+'] name c.toNat ∨ Number [] name c.toNat ∧ c.toNat = 0

/-! ## Names -/

theorem predefined?_eq_some_iff {name : List Char} {c : Char} :
    predefined? name = some c ↔ Predefined name c := by
  constructor
  · intro h
    unfold predefined? at h
    split at h
    · rename_i hname
      cases hname
      cases h
      exact .lt
    split at h
    · rename_i hname
      cases hname
      cases h
      exact .gt
    split at h
    · rename_i hname
      cases hname
      cases h
      exact .amp
    split at h
    · rename_i hname
      cases hname
      cases h
      exact .apos
    split at h
    · rename_i hname
      cases hname
      cases h
      exact .quot
    · cases h
  · rintro ⟨⟩ <;> rfl

theorem Predefined.not_number {name sign : List Char} {c : Char} (h : Predefined name c)
    (number : Nat) : ¬ Number sign name number := by
  intro hnumber
  cases h <;> cases hnumber

/-! ## Numbers -/

theorem char?_eq_some_iff {code : Nat} {c : Char} : Scalar.char? code = some c ↔ c.toNat = code := by
  constructor
  · intro h
    unfold Scalar.char? at h
    split at h
    · rename_i hvalid
      cases h
      exact Utf8.char_toNat_ofNat hvalid
    · cases h
  · rintro rfl
    exact char?_toNat c

theorem plain_of_digit {c : Char} {value : Nat} (h : Numeral.Digit c value) :
    c ∉ ['x', '+', ';', '&', '<', '>', '\'', '"'] ∧ c.toNat < 0x80 := by
  cases h with
  | decimal small => exact (by decide : ∀ value < 10, Char.ofNat ('0'.toNat + value) ∉
      ['x', '+', ';', '&', '<', '>', '\'', '"'] ∧
        (Char.ofNat ('0'.toNat + value)).toNat < 0x80) _ small
  | lower small => exact (by decide : ∀ value < 6, Char.ofNat ('a'.toNat + value) ∉
      ['x', '+', ';', '&', '<', '>', '\'', '"'] ∧
        (Char.ofNat ('a'.toNat + value)).toNat < 0x80) _ small
  | upper small => exact (by decide : ∀ value < 6, Char.ofNat ('A'.toNat + value) ∉
      ['x', '+', ';', '&', '<', '>', '\'', '"'] ∧
        (Char.ofNat ('A'.toNat + value)).toNat < 0x80) _ small

theorem plain_of_mem_digits {base number : Nat} {digits : List Char}
    (h : Numeral.Denotes base digits number) : ∀ c ∈ digits,
      c ∉ ['x', '+', ';', '&', '<', '>', '\'', '"'] ∧ c.toNat < 0x80 := by
  induction h with
  | digit last =>
    intro c hc
    rw [List.mem_singleton.mp hc]
    exact plain_of_digit last
  | concat _ last _ ih =>
    intro c hc
    rcases List.mem_append.mp hc with hc | hc
    · exact ih c hc
    · rw [List.mem_singleton.mp hc]
      exact plain_of_digit last

/-- Neither the mark of hexadecimal digits nor a sign is a digit. -/
theorem not_denotes_cons {base number : Nat} {c : Char} {rest : List Char}
    (h : c = 'x' ∨ c = '+') : ¬ Numeral.Denotes base (c :: rest) number := by
  intro hdenotes
  have hplain := (plain_of_mem_digits hdenotes c List.mem_cons_self).1
  rcases h with rfl | rfl <;> simp at hplain

theorem number_iff {sign text : List Char} {number : Nat} : Number sign ('#' :: text) number ↔
    (∃ digits, text = 'x' :: (sign ++ digits) ∧ Numeral.Denotes 16 digits number) ∨
      ∃ digits, text = sign ++ digits ∧ Numeral.Denotes 10 digits number := by
  constructor
  · intro h
    cases h with
    | decimal value => exact .inr ⟨_, rfl, value⟩
    | hexadecimal value => exact .inl ⟨_, rfl, value⟩
  · rintro (⟨digits, rfl, value⟩ | ⟨digits, rfl, value⟩)
    · exact .hexadecimal value
    · exact .decimal value

/-- A number is read in the base that its first character tells. -/
theorem code?_eq_some_iff {read : Nat → List Char → Option Nat} {text : List Char} {number : Nat}
    (hmark : ∀ rest, read 10 ('x' :: rest) ≠ some number) : code? read text = some number ↔
      (∃ rest, text = 'x' :: rest ∧ read 16 rest = some number) ∨ read 10 text = some number := by
  unfold code?
  split
  · rename_i rest
    constructor
    · intro h
      exact .inl ⟨rest, rfl, h⟩
    · rintro (⟨_, ⟨⟩, h⟩ | h)
      · exact h
      · exact absurd h (hmark rest)
  · rename_i hplain
    constructor
    · exact .inr
    · rintro (⟨rest, rfl, -⟩ | h)
      · exact absurd rfl (hplain rest)
      · exact h

theorem code?_readDigits {text : List Char} {number : Nat} :
    code? Numeral.readDigits text = some number ↔ Number [] ('#' :: text) number := by
  rw [code?_eq_some_iff fun rest h =>
    not_denotes_cons (.inl rfl) (Numeral.readDigits_eq_some_iff.mp h), number_iff]
  simp only [Numeral.readDigits_eq_some_iff, List.nil_append]
  constructor
  · rintro (⟨rest, rfl, h⟩ | h)
    · exact .inl ⟨rest, rfl, h⟩
    · exact .inr ⟨text, rfl, h⟩
  · rintro (⟨digits, rfl, h⟩ | ⟨digits, rfl, h⟩)
    · exact .inl ⟨digits, rfl, h⟩
    · exact .inr h

/-- One plus sign may stand in front of digits. -/
theorem read_eq_some_iff {base bound number : Nat} {text : List Char} :
    Numeral.read base bound text = some number ↔ number < bound ∧
      (Numeral.Denotes base text number ∨
        ∃ digits, text = '+' :: digits ∧ Numeral.Denotes base digits number) := by
  unfold Numeral.read
  dsimp only
  rw [Option.filter_eq_some_iff, Numeral.readDigits_eq_some_iff, decide_eq_true_eq, and_comm]
  refine and_congr_right fun _ => ?_
  split
  · rename_i rest
    constructor
    · intro h
      exact .inr ⟨rest, rfl, h⟩
    · rintro (h | ⟨_, ⟨⟩, h⟩)
      · exact absurd h (not_denotes_cons (.inr rfl))
      · exact h
  · rename_i hplain
    constructor
    · exact .inl
    · rintro (h | ⟨digits, rfl, -⟩)
      · exact h
      · exact absurd rfl (hplain digits)

theorem code?_read {bound number : Nat} {text : List Char} :
    code? (Numeral.read · bound) text = some number ↔ number < bound ∧
      (Number [] ('#' :: text) number ∨ Number ['+'] ('#' :: text) number) := by
  rw [code?_eq_some_iff fun rest h => ?_, number_iff, number_iff]
  · simp only [read_eq_some_iff, List.nil_append, List.singleton_append]
    constructor
    · rintro (⟨rest, rfl, hsmall, h | ⟨digits, rfl, h⟩⟩ | ⟨hsmall, h | ⟨digits, rfl, h⟩⟩)
      · exact ⟨hsmall, .inl (.inl ⟨rest, rfl, h⟩)⟩
      · exact ⟨hsmall, .inr (.inl ⟨digits, rfl, h⟩)⟩
      · exact ⟨hsmall, .inl (.inr ⟨text, rfl, h⟩)⟩
      · exact ⟨hsmall, .inr (.inr ⟨digits, rfl, h⟩)⟩
    · rintro ⟨hsmall, (⟨digits, rfl, h⟩ | ⟨digits, rfl, h⟩) | ⟨digits, rfl, h⟩ | ⟨digits, rfl, h⟩⟩
      · exact .inl ⟨digits, rfl, hsmall, .inl h⟩
      · exact .inr ⟨hsmall, .inl h⟩
      · exact .inl ⟨_, rfl, hsmall, .inr ⟨digits, rfl, h⟩⟩
      · exact .inr ⟨hsmall, .inr ⟨digits, rfl, h⟩⟩
  · obtain ⟨-, h | ⟨digits, hdigits, -⟩⟩ := read_eq_some_iff.mp h
    · exact not_denotes_cons (.inl rfl) h
    · cases hdigits

/-! ## References in content and in attribute values -/

theorem inAttribute?_number {text : List Char} {c : Char} :
    inAttribute? ('#' :: text) = some c ↔ Number [] ('#' :: text) c.toNat ∧ c.toNat ≠ 0 := by
  change ((code? Numeral.readDigits text).filter (· != 0)).bind Scalar.char? = some c ↔ _
  simp only [Option.bind_eq_some_iff, char?_eq_some_iff, Option.filter_eq_some_iff,
    code?_readDigits, bne_iff_ne]
  constructor
  · rintro ⟨_, h, rfl⟩
    exact h
  · intro h
    exact ⟨_, h, rfl⟩

theorem inContent?_number {text : List Char} {c : Char} :
    inContent? ('#' :: text) = some c ↔
      Number [] ('#' :: text) c.toNat ∨ Number ['+'] ('#' :: text) c.toNat := by
  have hsmall : c.toNat < 0x100000000 := Nat.lt_of_lt_of_le c.val.toNat_lt (by decide)
  change (code? (Numeral.read · 0x100000000) text).bind Scalar.char? = some c ↔ _
  simp only [Option.bind_eq_some_iff, char?_eq_some_iff, code?_read]
  constructor
  · rintro ⟨_, ⟨-, h⟩, rfl⟩
    exact h
  · intro h
    exact ⟨_, ⟨hsmall, h⟩, rfl⟩

/-- Whatever is no number has to be a name. -/
theorem of_name {name : List Char} (h : ∀ text, name ≠ '#' :: text) :
    inContent? name = predefined? name ∧ inAttribute? name = predefined? name := by
  cases name with
  | nil => exact ⟨rfl, rfl⟩
  | cons first rest =>
    have hfirst : first ≠ '#' := fun hfirst => h rest (by rw [hfirst])
    constructor
    · unfold inContent?
      split
      · rename_i heq
        exact absurd (List.cons.inj heq).1 hfirst
      · rfl
    · unfold inAttribute?
      split
      · rename_i heq
        exact absurd (List.cons.inj heq).1 hfirst
      · rfl

theorem number_shape {sign name : List Char} {number : Nat} (h : Number sign name number) :
    ∃ text, name = '#' :: text := by
  cases h <;> exact ⟨_, rfl⟩

/-- An attribute value takes the references of XML and no others. -/
theorem inAttribute?_eq_some_iff {name : List Char} {c : Char} :
    inAttribute? name = some c ↔ Denotes name c := by
  by_cases h : ∃ text, name = '#' :: text
  · obtain ⟨text, rfl⟩ := h
    rw [inAttribute?_number]
    constructor
    · rintro ⟨value, nonzero⟩
      exact .number value nonzero
    · rintro (⟨value, nonzero⟩ | ⟨⟨⟩⟩)
      exact ⟨value, nonzero⟩
  · rw [(of_name fun text htext => h ⟨text, htext⟩).2, predefined?_eq_some_iff]
    constructor
    · exact .predefined
    · rintro (⟨value, -⟩ | value)
      · exact absurd (number_shape value) h
      · exact value

/-- Content takes the references of XML, those with a plus sign, and zero. -/
theorem inContent?_eq_some_iff {name : List Char} {c : Char} :
    inContent? name = some c ↔ Denotes name c ∨ Lax name c := by
  by_cases h : ∃ text, name = '#' :: text
  · obtain ⟨text, rfl⟩ := h
    rw [inContent?_number]
    constructor
    · rintro (value | value)
      · by_cases hzero : c.toNat = 0
        · exact .inr (.inr ⟨value, hzero⟩)
        · exact .inl (.number value hzero)
      · exact .inr (.inl value)
    · rintro ((⟨value, -⟩ | ⟨⟨⟩⟩) | value | ⟨value, -⟩)
      · exact .inl value
      · exact .inr value
      · exact .inl value
  · rw [(of_name fun text htext => h ⟨text, htext⟩).1, predefined?_eq_some_iff]
    constructor
    · intro value
      exact .inl (.predefined value)
    · rintro ((⟨value, -⟩ | value) | value | ⟨value, -⟩)
      · exact absurd (number_shape value) h
      · exact value
      · exact absurd (number_shape value) h
      · exact absurd (number_shape value) h

theorem not_number_of_signed {name : List Char} {number number' : Nat}
    (h : Number ['+'] name number) : ¬ Number [] name number' := by
  intro value
  obtain ⟨text, rfl⟩ := number_shape h
  rcases number_iff.mp h with ⟨digits, rfl, -⟩ | ⟨digits, rfl, -⟩
  · rcases number_iff.mp value with ⟨_, ⟨⟩, hdenotes⟩ | ⟨_, ⟨⟩, hdenotes⟩
    · exact not_denotes_cons (.inr rfl) hdenotes
    · exact not_denotes_cons (.inl rfl) hdenotes
  · rcases number_iff.mp value with ⟨_, ⟨⟩, -⟩ | ⟨_, ⟨⟩, hdenotes⟩
    exact not_denotes_cons (.inr rfl) hdenotes

theorem not_denotes_of_lax {name : List Char} {c d : Char} (h : Lax name c) : ¬ Denotes name d := by
  rintro (⟨value, nonzero⟩ | value)
  · rcases h with hsigned | ⟨hzero, hc⟩
    · exact not_number_of_signed hsigned value
    · obtain ⟨text, rfl⟩ := number_shape value
      have hsame := (code?_readDigits.mpr hzero).symm.trans (code?_readDigits.mpr value)
      exact nonzero ((Option.some.inj hsame).symm.trans hc)
  · rcases h with hnumber | ⟨hnumber, -⟩ <;> exact value.not_number _ hnumber

/-- Content and attribute values take the same references, with the same characters, but for those
with a plus sign, and zero. -/
theorem inContent?_eq_inAttribute?_iff {name : List Char} :
    inContent? name = inAttribute? name ↔ ∀ c, ¬ Lax name c := by
  constructor
  · intro h c hlax
    have hcontent := inContent?_eq_some_iff.mpr (.inr hlax)
    rw [h, inAttribute?_eq_some_iff] at hcontent
    exact not_denotes_of_lax hlax hcontent
  · intro h
    ext c
    rw [inContent?_eq_some_iff, inAttribute?_eq_some_iff, or_iff_left (h c)]

/-- What XML has for references stands for the same character in content and in attribute values. -/
theorem Denotes.names {name : List Char} {c : Char} (h : Denotes name c) : Names name c := by
  refine ⟨inContent?_eq_some_iff.mpr (.inl h), inAttribute?_eq_some_iff.mpr h, ?_⟩
  have hdigits {base number : Nat} {digits : List Char}
      (value : Numeral.Denotes base digits number) (d : Char) (hd : d ∈ digits) :
      d ∉ [';', '&', '<', '>', '\'', '"'] ∧ d.toNat < 0x80 := by
    obtain ⟨hplain, hsmall⟩ := plain_of_mem_digits value d hd
    exact ⟨fun hmem => hplain (List.mem_cons_of_mem _ (List.mem_cons_of_mem _ hmem)), hsmall⟩
  intro d hd
  cases h with
  | number value =>
    cases value with
    | decimal value =>
      rcases List.mem_cons.mp hd with rfl | hd
      · decide
      · exact hdigits value d hd
    | hexadecimal value =>
      rcases List.mem_cons.mp hd with rfl | hd
      · decide
      rcases List.mem_cons.mp hd with rfl | hd
      · decide
      · exact hdigits value d hd
  | predefined value => exact (names_predefined (predefined?_eq_some_iff.mpr value)).plain d hd

end BinaryXml.Reference
