import Mathlib.Algebra.Group.Nat.Defs
import Mathlib.Data.List.Forall2
import BinaryXml.Proofs.Opaque.Encoding

/-! # Texts of bytes, bit by bit

* `bits`: the bits of a number, and of bytes one after the other.
* `OpaqueEncoding.Spells`: the characters of a text are those of an alphabet for the bits of some
  bytes, a fixed number of bits for each, and padding fills the last group of characters.
* `OpaqueEncoding.eq_of_spells`: bytes are spelt in one way.
* `OpaqueEncoding.spells_encode`: what is written for bytes spells them.
* `OpaqueEncoding.decode_inverts_encode`: what is accepted are the texts that spell some bytes, and
  these are the texts that are written.
-/

namespace BinaryXml

set_option autoImplicit false

/-! ## Bits -/

/-- The lowest bits of a number, the most significant one first. -/
def bits : Nat → Nat → List Bool
  | 0, _ => []
  | width + 1, value => bits width (value / 2) ++ [value % 2 == 1]

def Bytes.bits (data : Bytes) : List Bool :=
  data.flatMap fun b => BinaryXml.bits 8 b.toNat

section Bits
variable {width : Nat}

theorem length_bits (width value : Nat) : (bits width value).length = width := by
  induction width generalizing value with
  | zero => rfl
  | succ width ih => rw [bits, List.length_append, ih, List.length_singleton]

theorem bits_zero (width : Nat) : bits width 0 = List.replicate width false := by
  induction width with
  | zero => rfl
  | succ width ih =>
    rw [bits, Nat.zero_div, ih, List.replicate_succ']
    rfl

/-- The bits of a number in front of those of another one. -/
theorem bits_join (width width' value : Nat) {low : Nat} (h : low < 2 ^ width') :
    bits (width + width') (value * 2 ^ width' + low) = bits width value ++ bits width' low := by
  induction width' generalizing low with
  | zero =>
    have hlow : low = 0 := Nat.lt_one_iff.mp h
    rw [hlow, Nat.pow_zero, Nat.mul_one, Nat.add_zero, Nat.add_zero, bits, List.append_nil]
  | succ width' ih =>
    rw [Nat.pow_succ] at h
    have hhalf : (value * 2 ^ (width' + 1) + low) / 2 = value * 2 ^ width' + low / 2 := by
      rw [Nat.pow_succ, ← Nat.mul_assoc]
      omega
    have hodd : (value * 2 ^ (width' + 1) + low) % 2 = low % 2 := by
      rw [Nat.pow_succ, ← Nat.mul_assoc]
      omega
    rw [← Nat.add_assoc, bits, hhalf, hodd, ih (by omega), bits, List.append_assoc]

theorem bits_split (width width' value : Nat) : bits (width + width') value =
    bits width (value / 2 ^ width') ++ bits width' (value % 2 ^ width') := by
  rw [← bits_join width width' _ (Nat.mod_lt _ (Nat.two_pow_pos width')), Nat.div_add_mod']

theorem bits_injective {value value' : Nat} (h : value < 2 ^ width) (h' : value' < 2 ^ width)
    (heq : bits width value = bits width value') : value = value' := by
  induction width generalizing value value' with
  | zero => rw [Nat.lt_one_iff.mp h, Nat.lt_one_iff.mp h']
  | succ width ih =>
    rw [Nat.pow_succ] at h h'
    obtain ⟨hhalf, hodd⟩ := List.append_inj' heq rfl
    have hvalue := ih (by omega) (by omega) hhalf
    have hlast : (value % 2 == 1) = (value' % 2 == 1) := (List.cons.inj hodd).1
    have hparity : value % 2 = 1 ↔ value' % 2 = 1 := by
      rwa [Bool.eq_iff_iff, beq_iff_eq, beq_iff_eq] at hlast
    omega

theorem length_flatMap_bits (width : Nat) (values : List Nat) :
    (values.flatMap (bits width)).length = width * values.length := by
  induction values with
  | nil => rfl
  | cons value values ih =>
    rw [List.flatMap_cons, List.length_append, length_bits, ih, List.length_cons, Nat.mul_succ,
      Nat.add_comm]

theorem flatMap_bits_injective {values values' : List Nat} (h : ∀ value ∈ values, value < 2 ^ width)
    (h' : ∀ value ∈ values', value < 2 ^ width) (hlength : values.length = values'.length)
    (heq : values.flatMap (bits width) = values'.flatMap (bits width)) : values = values' := by
  -- All pieces have one width, so the front of the bits belongs to the first number.
  induction values generalizing values' with
  | nil => exact (List.eq_nil_of_length_eq_zero hlength.symm).symm
  | cons value values ih =>
    cases values' with
    | nil => cases hlength
    | cons value' values' =>
      obtain ⟨hvalue, hvalues⟩ := List.forall_mem_cons.mp h
      obtain ⟨hvalue', hvalues'⟩ := List.forall_mem_cons.mp h'
      rw [List.flatMap_cons, List.flatMap_cons] at heq
      obtain ⟨hfirst, hrest⟩ := List.append_inj heq (by rw [length_bits, length_bits])
      rw [bits_injective hvalue hvalue' hfirst,
        ih hvalues hvalues' (Nat.succ.inj hlength) hrest]

theorem Bytes.bits_eq (data : Bytes) :
    data.bits = (data.map UInt8.toNat).flatMap (BinaryXml.bits 8) := by
  rw [Bytes.bits, List.flatMap_map]

theorem Bytes.length_bits (data : Bytes) : data.bits.length = 8 * data.length := by
  rw [bits_eq, length_flatMap_bits, List.length_map]

theorem Bytes.bits_append (front back : Bytes) : (front ++ back).bits = front.bits ++ back.bits :=
  List.flatMap_append

end Bits

/-! ## Spellings -/

namespace OpaqueEncoding

/-- The characters for the values from zero on. -/
def alphabet : OpaqueEncoding → List Char
  | .base64 => "ABCDEFGHIJKLMNOPQRSTUVWXYZabcdefghijklmnopqrstuvwxyz0123456789+/".toList
  | .hex => "0123456789ABCDEF".toList

/-- How many bits a character stands for. -/
def width : OpaqueEncoding → Nat
  | .base64 => 6
  | .hex => 4

/-- How many characters stand for whole bytes. -/
def group : OpaqueEncoding → Nat
  | .base64 => 4
  | .hex => 2

/-- A character is the one for a value. -/
def Stands (encoding : OpaqueEncoding) (value : Nat) (c : Char) : Prop :=
  encoding.alphabet[value]? = some c

/-- The characters stand for the bits of some bytes. Zero bits fill the last character, and padding
the last group. -/
inductive Spells (encoding : OpaqueEncoding) : List Char → Bytes → Prop
  | intro {values : List Nat} {chars : List Char} {data : Bytes} {zeros pads : Nat}
      (stand : List.Forall₂ encoding.Stands values chars)
      (bits : values.flatMap (bits encoding.width) = data.bits ++ List.replicate zeros false)
      (filled : zeros < encoding.width) (whole : encoding.group ∣ chars.length + pads)
      (padded : pads < encoding.group) :
      Spells encoding (chars ++ List.replicate pads '=') data

section Spells
variable {encoding : OpaqueEncoding} {values : List Nat} {chars chars' : List Char} {data : Bytes}

theorem length_alphabet (encoding : OpaqueEncoding) :
    encoding.alphabet.length = 2 ^ encoding.width := by
  cases encoding <;> decide

theorem lt_of_stand (h : List.Forall₂ encoding.Stands values chars) :
    ∀ value ∈ values, value < 2 ^ encoding.width := by
  induction h with
  | nil => exact fun _ hmem => absurd hmem List.not_mem_nil
  | cons hstands _ ih =>
    obtain ⟨hlt, -⟩ := List.getElem?_eq_some_iff.mp hstands
    rw [length_alphabet] at hlt
    exact List.forall_mem_cons.mpr ⟨hlt, ih⟩

/-- Bytes are spelt in one way: their bits say how many characters there are, which ones these are
and how much padding is behind them. -/
theorem eq_of_spells (h : encoding.Spells chars data) (h' : encoding.Spells chars' data) :
    chars = chars' := by
  obtain ⟨stand, bits, filled, whole, padded⟩ := h
  obtain ⟨stand', bits', filled', whole', padded'⟩ := h'
  rename_i values chars zeros pads values' chars' zeros' pads'
  have hbits := congrArg List.length bits
  have hbits' := congrArg List.length bits'
  rw [length_flatMap_bits, List.length_append, Bytes.length_bits, List.length_replicate]
    at hbits hbits'
  -- The zero bits are too few for a character, so the bits of the bytes fix how many there are.
  have hsame : values.length = values'.length ∧ zeros = zeros' := by
    cases encoding <;> simp only [width] at hbits hbits' filled filled' <;> omega
  obtain ⟨hlength, rfl⟩ := hsame
  obtain rfl := flatMap_bits_injective (lt_of_stand stand) (lt_of_stand stand') hlength
    (bits.trans bits'.symm)
  have hunique : Relator.RightUnique encoding.Stands :=
    fun _ _ _ hstands hstands' => Option.some.inj (hstands.symm.trans hstands')
  obtain rfl := List.right_unique_forall₂' hunique stand stand'
  -- In the same way the padding is too short for a group.
  have hpads : pads = pads' := by
    cases encoding <;> simp only [group] at whole whole' padded padded' <;> omega
  rw [hpads]

/-- Bytes whose bits fill whole groups are spelt in front of any others. -/
theorem Spells.behind {front : List Char} {block : Bytes} (h : encoding.Spells chars data)
    (stand : List.Forall₂ encoding.Stands values front)
    (bits : values.flatMap (bits encoding.width) = block.bits)
    (whole : encoding.group ∣ front.length) : encoding.Spells (front ++ chars) (block ++ data) := by
  obtain ⟨stand', bits', filled, whole', padded⟩ := h
  rename_i values' chars zeros pads
  have hstands : List.Forall₂ encoding.Stands (values ++ values') (front ++ chars) :=
    List.rel_append stand stand'
  have hbits : (values ++ values').flatMap (BinaryXml.bits encoding.width) =
      (block ++ data).bits ++ List.replicate zeros false := by
    rw [List.flatMap_append, bits, bits', Bytes.bits_append, List.append_assoc]
  have hwhole : encoding.group ∣ (front ++ chars).length + pads := by
    rw [List.length_append, Nat.add_assoc]
    exact Nat.dvd_add whole whole'
  rw [← List.append_assoc]
  exact .intro hstands hbits filled hwhole padded

theorem stands_symbol : ∀ value < 64, base64.Stands value (Base64.symbol value) := by
  unfold Stands
  decide

theorem stands_digit : ∀ value < 16, hex.Stands value (Numeral.digit value) := by
  unfold Stands
  decide

/-- The first two characters share the bits of a byte and of the half behind it. -/
theorem bits_first (a : UInt8) {half : Nat} (h : half < 16) :
    bits 6 (a.toNat / 4) ++ bits 6 (a.toNat % 4 * 16 + half) = bits 8 a.toNat ++ bits 4 half := by
  have hbyte : bits 8 a.toNat = bits 6 (a.toNat / 4) ++ bits 2 (a.toNat % 4) :=
    bits_split 6 2 a.toNat
  have hshared : bits 6 (a.toNat % 4 * 16 + half) = bits 2 (a.toNat % 4) ++ bits 4 half :=
    bits_join 2 4 (a.toNat % 4) h
  rw [hbyte, hshared, List.append_assoc]

/-- The third character has the other half of the second byte and a quarter of the one behind. -/
theorem bits_second (b : UInt8) {quarter : Nat} (h : quarter < 4) :
    bits 4 (b.toNat / 16) ++ bits 6 (b.toNat % 16 * 4 + quarter) =
      bits 8 b.toNat ++ bits 2 quarter := by
  have hbyte : bits 8 b.toNat = bits 4 (b.toNat / 16) ++ bits 4 (b.toNat % 16) :=
    bits_split 4 4 b.toNat
  have hshared : bits 6 (b.toNat % 16 * 4 + quarter) = bits 4 (b.toNat % 16) ++ bits 2 quarter :=
    bits_join 4 2 (b.toNat % 16) h
  rw [hbyte, hshared, List.append_assoc]

theorem bits_third (c : UInt8) :
    bits 2 (c.toNat / 64) ++ bits 6 (c.toNat % 64) = bits 8 c.toNat :=
  (bits_split 2 6 c.toNat).symm

theorem spells_one (a : UInt8) : base64.Spells (Base64.encode [a]) [a] := by
  have ha := a.toNat_lt
  have hstands : List.Forall₂ base64.Stands [a.toNat / 4, a.toNat % 4 * 16]
      [Base64.symbol (a.toNat / 4), Base64.symbol (a.toNat % 4 * 16)] :=
    .cons (stands_symbol _ (by omega)) (.cons (stands_symbol _ (by omega)) .nil)
  have hbits : bits 6 (a.toNat / 4) ++ (bits 6 (a.toNat % 4 * 16) ++ []) =
      bits 8 a.toNat ++ [] ++ List.replicate 4 false := by
    have hfirst := @bits_first a 0 (by decide)
    rw [Nat.add_zero] at hfirst
    rw [List.append_nil, List.append_nil, ← bits_zero, hfirst]
  exact @Spells.intro base64 _ _ [a] 4 2 hstands hbits (by decide) (Nat.dvd_refl 4) (by decide)

theorem spells_two (a b : UInt8) : base64.Spells (Base64.encode [a, b]) [a, b] := by
  have ha := a.toNat_lt
  have hb := b.toNat_lt
  have hstands : List.Forall₂ base64.Stands
      [a.toNat / 4, a.toNat % 4 * 16 + b.toNat / 16, b.toNat % 16 * 4]
      [Base64.symbol (a.toNat / 4), Base64.symbol (a.toNat % 4 * 16 + b.toNat / 16),
        Base64.symbol (b.toNat % 16 * 4)] :=
    .cons (stands_symbol _ (by omega)) (.cons (stands_symbol _ (by omega))
      (.cons (stands_symbol _ (by omega)) .nil))
  have hbits : bits 6 (a.toNat / 4) ++ (bits 6 (a.toNat % 4 * 16 + b.toNat / 16) ++
      (bits 6 (b.toNat % 16 * 4) ++ [])) =
        bits 8 a.toNat ++ (bits 8 b.toNat ++ []) ++ List.replicate 2 false := by
    have hsecond := @bits_second b 0 (by decide)
    rw [Nat.add_zero] at hsecond
    rw [List.append_nil, List.append_nil, ← bits_zero, ← List.append_assoc,
      bits_first a (by omega), List.append_assoc, hsecond, List.append_assoc]
  exact @Spells.intro base64 _ _ [a, b] 2 1 hstands hbits (by decide) (Nat.dvd_refl 4) (by decide)

theorem spells_three {a b c : UInt8} {rest : Bytes}
    (h : base64.Spells (Base64.encode rest) rest) :
    base64.Spells (Base64.encode (a :: b :: c :: rest)) (a :: b :: c :: rest) := by
  have ha := a.toNat_lt
  have hb := b.toNat_lt
  have hc := c.toNat_lt
  have hstands : List.Forall₂ base64.Stands
      [a.toNat / 4, a.toNat % 4 * 16 + b.toNat / 16, b.toNat % 16 * 4 + c.toNat / 64,
        c.toNat % 64]
      [Base64.symbol (a.toNat / 4), Base64.symbol (a.toNat % 4 * 16 + b.toNat / 16),
        Base64.symbol (b.toNat % 16 * 4 + c.toNat / 64), Base64.symbol (c.toNat % 64)] :=
    .cons (stands_symbol _ (by omega)) (.cons (stands_symbol _ (by omega))
      (.cons (stands_symbol _ (by omega)) (.cons (stands_symbol _ (by omega)) .nil)))
  have hbits : bits 6 (a.toNat / 4) ++ (bits 6 (a.toNat % 4 * 16 + b.toNat / 16) ++
      (bits 6 (b.toNat % 16 * 4 + c.toNat / 64) ++ (bits 6 (c.toNat % 64) ++ []))) =
        bits 8 a.toNat ++ (bits 8 b.toNat ++ (bits 8 c.toNat ++ [])) := by
    rw [← List.append_assoc, bits_first a (by omega), List.append_assoc,
      ← List.append_assoc (bits 4 _), bits_second b (by omega), List.append_assoc,
      ← List.append_assoc (bits 2 _), bits_third]
  exact @Spells.behind base64 _ _ rest _ [a, b, c] h hstands hbits (Nat.dvd_refl 4)

theorem spells_byte {b : UInt8} {rest : Bytes} (h : hex.Spells (Hex.encode rest) rest) :
    hex.Spells (Hex.encode (b :: rest)) (b :: rest) := by
  have hb := b.toNat_lt
  have hstands : List.Forall₂ hex.Stands [b.toNat / 16, b.toNat % 16]
      [Numeral.digit (b.toNat / 16), Numeral.digit (b.toNat % 16)] :=
    .cons (stands_digit _ (by omega)) (.cons (stands_digit _ (by omega)) .nil)
  have hbits : bits 4 (b.toNat / 16) ++ (bits 4 (b.toNat % 16) ++ []) = bits 8 b.toNat ++ [] := by
    rw [List.append_nil, List.append_nil]
    exact (bits_split 4 4 b.toNat).symm
  exact @Spells.behind hex _ _ rest _ [b] h hstands hbits (Nat.dvd_refl 2)

theorem spells_nil : encoding.Spells [] [] := by
  cases encoding <;> exact @Spells.intro _ [] [] [] 0 0 .nil rfl (by decide) (by decide) (by decide)

theorem spells_base64 : ∀ data : Bytes, base64.Spells (Base64.encode data) data
  | [] => spells_nil
  | [a] => spells_one a
  | [a, b] => spells_two a b
  | _ :: _ :: _ :: rest => spells_three (spells_base64 rest)

theorem spells_hex (data : Bytes) : hex.Spells (Hex.encode data) data := by
  induction data with
  | nil => exact spells_nil
  | cons b rest ih => exact spells_byte ih

theorem spells_encode (encoding : OpaqueEncoding) (data : Bytes) :
    encoding.Spells (encoding.encode data).toList data := by
  rw [encode_eq, String.toList_ofList]
  cases encoding with
  | base64 => exact spells_base64 data
  | hex => exact spells_hex data

end Spells

/-! ## What is accepted -/

variable {encoding : OpaqueEncoding} {text text' : String} {data : Bytes}

theorem decode_eq_some_iff : encoding.decode text = some data ↔ text = encoding.encode data := by
  rw [decode_eq, Option.filter_eq_some_iff, beq_iff_eq]
  constructor
  · rintro ⟨-, htext⟩
    exact htext.symm
  · rintro rfl
    rw [encode_eq, String.toList_ofList]
    exact ⟨decodeChars_encodeChars data, rfl⟩

theorem spells_iff : encoding.Spells text.toList data ↔ text = encoding.encode data := by
  constructor
  · intro h
    exact String.toList_inj.mp (eq_of_spells h (spells_encode encoding data))
  · rintro rfl
    exact spells_encode encoding data

/-- The same byte with a bit that is not zero behind it, or without padding, is not spelt. -/
example : base64.decode "AQ==" = some [1] ∧ base64.decode "AR==" = none ∧
    base64.decode "AQ" = none := by
  decide

/-- What is written for bytes is read as these bytes, and nothing else is. The texts that are
accepted are the ones that spell some bytes, character by character, and no two of them are read as
the same bytes. -/
theorem decode_inverts_encode (encoding : OpaqueEncoding) :
    (∀ data, encoding.decode (encoding.encode data) = some data) ∧
      Function.Injective encoding.encode ∧
      (∀ text data, encoding.decode text = some data ↔ text = encoding.encode data) ∧
      (∀ text data, encoding.decode text = some data ↔ encoding.Spells text.toList data) ∧
      ∀ text text' data, encoding.decode text = some data → encoding.decode text' = some data →
        text = text' := by
  have hread (data : Bytes) : encoding.decode (encoding.encode data) = some data :=
    decode_eq_some_iff.mpr rfl
  refine ⟨hread, ?_, fun text data => decode_eq_some_iff, fun text data => ?_, ?_⟩
  · intro data data' heq
    rw [← Option.some_inj, ← hread data, heq, hread data']
  · rw [decode_eq_some_iff, spells_iff]
  · intro text text' data htext htext'
    rw [decode_eq_some_iff.mp htext, decode_eq_some_iff.mp htext']

end OpaqueEncoding

end BinaryXml
