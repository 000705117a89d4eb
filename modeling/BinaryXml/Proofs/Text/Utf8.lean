import BinaryXml.Text.Utf8

/-! # UTF-8 is read as it is written

* `decodeFrom_encodeChar`: the bytes of one character are read as that character.
* `decode_encode`: the bytes of a string are read as that string.
* `mem_encode_iff`: a byte of ASCII stands for its own character only.
* `encode_of_decode`: bytes that are read as a string are the bytes of that string.
-/

namespace BinaryXml

set_option autoImplicit false

/-- What is said of all members of a list is decided member by member, even if their type is
finite. -/
instance (priority := high) decidableForallMem {α : Type} (p : α → Prop) [DecidablePred p]
    (list : List α) : Decidable (∀ a ∈ list, p a) :=
  List.decidableBAll p list

namespace Utf8

/-- The bytes of a string are the ones that it is kept in. -/
theorem encode_eq_toByteArray (text : String) : encode text = text.toByteArray.data.toList := by
  rw [encode, encodeChars, ← String.utf8Encode_toList, List.utf8Encode, List.data_toByteArray]

/-! ## Single bytes -/

deriving instance DecidableEq for Partial
deriving instance DecidableEq for Step

theorem toNat_ofNat {n : Nat} (hn : n < 256) : (UInt8.ofNat n).toNat = n := by
  rw [UInt8.toNat_ofNat', Nat.mod_eq_of_lt hn]

theorem char_toNat_ofNat {n : Nat} (h : n.isValidChar) : (Char.ofNat n).toNat = n := by
  unfold Char.ofNat
  rw [dif_pos h]
  rfl

theorem first_of_one : ∀ n < 0x80, first (UInt8.ofNat n) = .char (Char.ofNat n) := by
  decide

theorem first_of_two : ∀ n < 0x20, 2 ≤ n →
    first (UInt8.ofNat (n + 0xC0)) = .more ⟨n, 0x80, 0xBF, 0, 1⟩ := by
  decide

theorem first_of_three : ∀ n < 0x10, first (UInt8.ofNat (n + 0xE0)) =
    .more ⟨n, if n = 0 then 0xA0 else 0x80, if n = 0xD then 0x9F else 0xBF, 1, 1⟩ := by
  decide

theorem first_of_four : ∀ n < 5, first (UInt8.ofNat (n + 0xF0)) =
    .more ⟨n, if n = 0 then 0x90 else 0x80, if n = 4 then 0x8F else 0xBF, 2, 1⟩ := by
  decide

theorem next_of_range {state : Partial} {n : Nat} (hn : n < 0x40)
    (hlow : state.low.toNat ≤ n + 0x80) (hhigh : n + 0x80 ≤ state.high.toNat) :
    state.next (UInt8.ofNat (n + 0x80)) = match state.after with
      | 0 => .char (Char.ofNat (state.bits * 64 + n))
      | after + 1 => .more ⟨state.bits * 64 + n, 0x80, 0xBF, after, state.read + 1⟩ := by
  have hbyte : (UInt8.ofNat (n + 0x80)).toNat = n + 0x80 := toNat_ofNat (by omega)
  have hrange : state.low ≤ UInt8.ofNat (n + 0x80) ∧ UInt8.ofNat (n + 0x80) ≤ state.high := by
    rw [UInt8.le_iff_toNat_le, UInt8.le_iff_toNat_le, hbyte]
    exact ⟨hlow, hhigh⟩
  cases hafter : state.after with
  | zero => simp only [Partial.next, if_pos hrange, hbyte, Nat.add_sub_cancel, hafter]
  | succ after => simp only [Partial.next, if_pos hrange, hbyte, Nat.add_sub_cancel, hafter]

theorem next_of_full {bits after read n : Nat} (hn : n < 0x40) :
    Partial.next ⟨bits, 0x80, 0xBF, after, read⟩ (UInt8.ofNat (n + 0x80)) = match after with
      | 0 => .char (Char.ofNat (bits * 64 + n))
      | after + 1 => .more ⟨bits * 64 + n, 0x80, 0xBF, after, read + 1⟩ :=
  next_of_range hn (show 0x80 ≤ n + 0x80 by omega) (show n + 0x80 ≤ 0xBF by omega)

/-- The range of the second of three bytes excludes overlong forms and surrogates. -/
theorem second_of_three {a m : Nat} (hm : m < 0x40) :
    (if a = 0 then 0xA0 else 0x80 : UInt8).toNat ≤ m + 0x80 ∧
      m + 0x80 ≤ (if a = 0xD then 0x9F else 0xBF : UInt8).toNat ↔
    (a = 0 → 0x20 ≤ m) ∧ (a = 0xD → m < 0x20) := by
  rw [apply_ite UInt8.toNat, apply_ite UInt8.toNat]
  change (if a = 0 then 0xA0 else 0x80 : Nat) ≤ m + 0x80 ∧
    m + 0x80 ≤ (if a = 0xD then 0x9F else 0xBF : Nat) ↔ _
  split <;> split <;> omega

/-- The range of the second of four bytes excludes overlong forms and numbers above U+10FFFF. -/
theorem second_of_four {a m : Nat} (hm : m < 0x40) :
    (if a = 0 then 0x90 else 0x80 : UInt8).toNat ≤ m + 0x80 ∧
      m + 0x80 ≤ (if a = 4 then 0x8F else 0xBF : UInt8).toNat ↔
    (a = 0 → 0x10 ≤ m) ∧ (a = 4 → m < 0x10) := by
  rw [apply_ite UInt8.toNat, apply_ite UInt8.toNat]
  change (if a = 0 then 0x90 else 0x80 : Nat) ≤ m + 0x80 ∧
    m + 0x80 ≤ (if a = 4 then 0x8F else 0xBF : Nat) ↔ _
  split <;> split <;> omega

/-! ## Characters -/

/-- The bytes of one character. Its number is the bits of its bytes but the leading ones, in base
64; overlong forms, surrogates and numbers above U+10FFFF have no bytes. -/
inductive CharForm : Char → Bytes → Prop where
  | one {n : Nat} (hn : n < 0x80) : CharForm (Char.ofNat n) [UInt8.ofNat n]
  | two {a m : Nat} (ha : a < 0x20) (hlow : 2 ≤ a) (hm : m < 0x40) :
    CharForm (Char.ofNat (a * 64 + m)) [UInt8.ofNat (a + 0xC0), UInt8.ofNat (m + 0x80)]
  | three {a m k : Nat} (ha : a < 0x10) (hlow : a = 0 → 0x20 ≤ m) (hsurrogate : a = 0xD → m < 0x20)
      (hm : m < 0x40) (hk : k < 0x40) :
    CharForm (Char.ofNat ((a * 64 + m) * 64 + k))
      [UInt8.ofNat (a + 0xE0), UInt8.ofNat (m + 0x80), UInt8.ofNat (k + 0x80)]
  | four {a m k l : Nat} (ha : a < 5) (hlow : a = 0 → 0x10 ≤ m) (hhigh : a = 4 → m < 0x10)
      (hm : m < 0x40) (hk : k < 0x40) (hl : l < 0x40) :
    CharForm (Char.ofNat (((a * 64 + m) * 64 + k) * 64 + l))
      [UInt8.ofNat (a + 0xF0), UInt8.ofNat (m + 0x80), UInt8.ofNat (k + 0x80),
        UInt8.ofNat (l + 0x80)]

theorem CharForm.ne_nil {c : Char} {bytes : Bytes} (form : CharForm c bytes) : bytes ≠ [] := by
  cases form <;> exact List.cons_ne_nil _ _

theorem encodeChar_of_ascii {c : Char} (h : c.toNat < 0x80) :
    String.utf8EncodeChar c = [UInt8.ofNat c.toNat] := by
  have hle : c.val.toNat ≤ 0x7F := Nat.le_of_lt_succ h
  rw [String.utf8EncodeChar, if_pos hle]
  rfl

theorem encodeChar_of_two {a m : Nat} (ha : a < 0x20) (hlow : 2 ≤ a) (hm : m < 0x40) :
    String.utf8EncodeChar (Char.ofNat (a * 64 + m)) =
      [UInt8.ofNat (a + 0xC0), UInt8.ofNat (m + 0x80)] := by
  have hvalid : (a * 64 + m).isValidChar := Or.inl (by omega)
  have hval : (Char.ofNat (a * 64 + m)).val.toNat = a * 64 + m := char_toNat_ofNat hvalid
  rw [String.utf8EncodeChar]
  simp only [hval]
  have hlead : (a * 64 + m) / 64 % 32 = a := by omega
  have hlast : (a * 64 + m) % 64 = m := by omega
  rw [if_neg (by omega), if_pos (by omega), hlead, hlast]

theorem encodeChar_of_three {a m k : Nat} (ha : a < 0x10) (hlow : a = 0 → 0x20 ≤ m)
    (hsurrogate : a = 0xD → m < 0x20) (hm : m < 0x40) (hk : k < 0x40) :
    String.utf8EncodeChar (Char.ofNat ((a * 64 + m) * 64 + k)) =
      [UInt8.ofNat (a + 0xE0), UInt8.ofNat (m + 0x80), UInt8.ofNat (k + 0x80)] := by
  have hvalid : ((a * 64 + m) * 64 + k).isValidChar := by
    unfold Nat.isValidChar
    omega
  have hval : (Char.ofNat ((a * 64 + m) * 64 + k)).val.toNat = (a * 64 + m) * 64 + k :=
    char_toNat_ofNat hvalid
  rw [String.utf8EncodeChar]
  simp only [hval]
  have hlead : ((a * 64 + m) * 64 + k) / 4096 % 16 = a := by omega
  have hmiddle : ((a * 64 + m) * 64 + k) / 64 % 64 = m := by omega
  have hlast : ((a * 64 + m) * 64 + k) % 64 = k := by omega
  rw [if_neg (by omega), if_neg (by omega), if_pos (by omega), hlead, hmiddle, hlast]

theorem encodeChar_of_four {a m k l : Nat} (ha : a < 5) (hlow : a = 0 → 0x10 ≤ m)
    (hhigh : a = 4 → m < 0x10) (hm : m < 0x40) (hk : k < 0x40) (hl : l < 0x40) :
    String.utf8EncodeChar (Char.ofNat (((a * 64 + m) * 64 + k) * 64 + l)) =
      [UInt8.ofNat (a + 0xF0), UInt8.ofNat (m + 0x80), UInt8.ofNat (k + 0x80),
        UInt8.ofNat (l + 0x80)] := by
  have hvalid : (((a * 64 + m) * 64 + k) * 64 + l).isValidChar := by
    unfold Nat.isValidChar
    omega
  have hval : (Char.ofNat (((a * 64 + m) * 64 + k) * 64 + l)).val.toNat =
      ((a * 64 + m) * 64 + k) * 64 + l := char_toNat_ofNat hvalid
  rw [String.utf8EncodeChar]
  simp only [hval]
  have hlead : (((a * 64 + m) * 64 + k) * 64 + l) / 262144 % 8 = a := by omega
  have hsecond : (((a * 64 + m) * 64 + k) * 64 + l) / 4096 % 64 = m := by omega
  have hthird : (((a * 64 + m) * 64 + k) * 64 + l) / 64 % 64 = k := by omega
  have hlast : (((a * 64 + m) * 64 + k) * 64 + l) % 64 = l := by omega
  rw [if_neg (by omega), if_neg (by omega), if_neg (by omega), hlead, hsecond, hthird, hlast]

theorem encodeChar_of_form {c : Char} {bytes : Bytes} (form : CharForm c bytes) :
    String.utf8EncodeChar c = bytes := by
  cases form with
  | @one n hn =>
    have hvalid : n.isValidChar := Or.inl (by omega)
    rw [encodeChar_of_ascii (by rwa [char_toNat_ofNat hvalid]), char_toNat_ofNat hvalid]
  | two ha hlow hm => exact encodeChar_of_two ha hlow hm
  | three ha hlow hsurrogate hm hk => exact encodeChar_of_three ha hlow hsurrogate hm hk
  | four ha hlow hhigh hm hk hl => exact encodeChar_of_four ha hlow hhigh hm hk hl

theorem exists_charForm (c : Char) : ∃ bytes, CharForm c bytes := by
  have hvalid : c.toNat.isValidChar := c.valid
  have hc : Char.ofNat c.toNat = c := Char.ofNat_toNat c
  unfold Nat.isValidChar at hvalid
  -- The number of bytes is decided by the number of the character.
  by_cases h1 : c.toNat < 0x80
  · rw [← hc]
    exact ⟨_, .one h1⟩
  by_cases h2 : c.toNat < 0x800
  · rw [← hc, show c.toNat = c.toNat / 64 * 64 + c.toNat % 64 by omega]
    exact ⟨_, .two (by omega) (by omega) (by omega)⟩
  by_cases h3 : c.toNat < 0x10000
  · rw [← hc, show c.toNat = (c.toNat / 4096 * 64 + c.toNat / 64 % 64) * 64 + c.toNat % 64 by omega]
    exact ⟨_, .three (by omega) (by omega) (by omega) (by omega) (by omega)⟩
  · rw [← hc, show c.toNat = ((c.toNat / 262144 * 64 + c.toNat / 4096 % 64) * 64 +
      c.toNat / 64 % 64) * 64 + c.toNat % 64 by omega]
    exact ⟨_, .four (by omega) (by omega) (by omega) (by omega) (by omega) (by omega)⟩

theorem charForm_encodeChar (c : Char) : CharForm c (String.utf8EncodeChar c) := by
  obtain ⟨bytes, form⟩ := exists_charForm c
  rwa [encodeChar_of_form form]

/-- The bytes of a character are read as that character, whatever stands behind them. -/
theorem decodeFrom_of_form (index : Nat) {c : Char} {bytes : Bytes} (form : CharForm c bytes)
    (rest : Bytes) : decodeFrom index none (bytes ++ rest) =
      (c :: ·) <$> decodeFrom (index + bytes.length) none rest := by
  cases form with
  | one hn =>
    rw [List.singleton_append, decodeFrom, first_of_one _ hn]
    rfl
  | two ha hlow hm =>
    rw [List.cons_append, decodeFrom, first_of_two _ ha hlow]
    dsimp only
    rw [List.singleton_append, decodeFrom, next_of_full hm]
    rfl
  | three ha hlow hsurrogate hm hk =>
    obtain ⟨hfrom, hto⟩ := (second_of_three hm).mpr ⟨hlow, hsurrogate⟩
    rw [List.cons_append, decodeFrom, first_of_three _ ha]
    dsimp only
    rw [List.cons_append, decodeFrom, next_of_range hm hfrom hto]
    dsimp only
    rw [List.singleton_append, decodeFrom, next_of_full hk]
    rfl
  | four ha hlow hhigh hm hk hl =>
    obtain ⟨hfrom, hto⟩ := (second_of_four hm).mpr ⟨hlow, hhigh⟩
    rw [List.cons_append, decodeFrom, first_of_four _ ha]
    dsimp only
    rw [List.cons_append, decodeFrom, next_of_range hm hfrom hto]
    dsimp only
    rw [List.cons_append, decodeFrom, next_of_full hk]
    dsimp only
    rw [List.singleton_append, decodeFrom, next_of_full hl]
    rfl

theorem decodeFrom_encodeChar (index : Nat) (c : Char) (rest : Bytes) :
    decodeFrom index none (String.utf8EncodeChar c ++ rest) =
      (c :: ·) <$> decodeFrom (index + (String.utf8EncodeChar c).length) none rest :=
  decodeFrom_of_form index (charForm_encodeChar c) rest

theorem decodeFrom_encodeChars (index : Nat) (chars : List Char) :
    decodeFrom index none (encodeChars chars) = .ok chars := by
  induction chars generalizing index with
  | nil => rfl
  | cons c chars ih =>
    have hsplit : encodeChars (c :: chars) = String.utf8EncodeChar c ++ encodeChars chars := rfl
    rw [hsplit, decodeFrom_encodeChar, ih]
    rfl

/-- The bytes of a string are read as that string. -/
theorem decode_encode (text : String) : decode (encode text) = .ok text := by
  unfold decode decodeChars encode
  rw [decodeFrom_encodeChars]
  change Except.ok (String.ofList text.toList) = _
  rw [String.ofList_toList]

theorem encodeChars_append (front back : List Char) :
    encodeChars (front ++ back) = encodeChars front ++ encodeChars back :=
  List.flatMap_append

theorem encode_append (front back : String) :
    encode (front ++ back) = encode front ++ encode back := by
  unfold encode
  rw [String.toList_append, encodeChars_append]

theorem encode_injective {first second : String} (h : encode first = encode second) :
    first = second := by
  have hdecode := decode_encode first
  rw [h, decode_encode second] at hdecode
  exact (Except.ok.inj hdecode).symm

/-! ## ASCII -/

/-- The bytes of other characters are none of ASCII. -/
theorem le_of_mem_encodeChar {c : Char} (h : 0x80 ≤ c.toNat) {b : UInt8}
    (hb : b ∈ String.utf8EncodeChar c) : 0x80 ≤ b := by
  have hlarge {n : Nat} (hlow : 0x80 ≤ n) (hhigh : n < 256) : 0x80 ≤ UInt8.ofNat n := by
    rw [UInt8.le_iff_toNat_le, toNat_ofNat hhigh]
    exact hlow
  generalize hbytes : String.utf8EncodeChar c = bytes at hb
  have form : CharForm c bytes := hbytes ▸ charForm_encodeChar c
  cases form with
  | one hn =>
    rw [char_toNat_ofNat (Or.inl (by omega))] at h
    omega
  | two =>
    simp only [List.mem_cons, List.not_mem_nil, or_false] at hb
    rcases hb with rfl | rfl <;> exact hlarge (by omega) (by omega)
  | three =>
    simp only [List.mem_cons, List.not_mem_nil, or_false] at hb
    rcases hb with rfl | rfl | rfl <;> exact hlarge (by omega) (by omega)
  | four =>
    simp only [List.mem_cons, List.not_mem_nil, or_false] at hb
    rcases hb with rfl | rfl | rfl | rfl <;> exact hlarge (by omega) (by omega)

/-- A byte of ASCII stands for its own character only. -/
theorem mem_encodeChar_iff {b : UInt8} (hb : b < 0x80) (c : Char) :
    b ∈ String.utf8EncodeChar c ↔ c = Char.ofNat b.toNat := by
  rw [UInt8.lt_iff_toNat_lt] at hb
  by_cases hc : c.toNat < 0x80
  · rw [encodeChar_of_ascii hc, List.mem_singleton]
    constructor
    · rintro rfl
      rw [toNat_ofNat (by omega), Char.ofNat_toNat]
    · intro h
      have hvalid : b.toNat.isValidChar := Or.inl (Nat.lt_trans hb (by decide))
      rw [h, char_toNat_ofNat hvalid, UInt8.ofNat_toNat]
  · constructor
    · intro hmem
      have hle := le_of_mem_encodeChar (Nat.not_lt.mp hc) hmem
      rw [UInt8.le_iff_toNat_le] at hle
      exact absurd hle (Nat.not_le.mpr hb)
    · intro h
      have hvalid : b.toNat.isValidChar := Or.inl (Nat.lt_trans hb (by decide))
      rw [h, char_toNat_ofNat hvalid] at hc
      exact absurd hb hc

/-- The byte of a character of ASCII stands for this character only. -/
theorem ofNat_mem_encodeChar_iff {d : Char} (hd : d.toNat < 0x80) (c : Char) :
    UInt8.ofNat d.toNat ∈ String.utf8EncodeChar c ↔ c = d := by
  have hbyte : (UInt8.ofNat d.toNat).toNat = d.toNat := toNat_ofNat (by omega)
  have hsmall : UInt8.ofNat d.toNat < 0x80 := by
    rw [UInt8.lt_iff_toNat_lt, hbyte]
    exact hd
  rw [mem_encodeChar_iff hsmall, hbyte, Char.ofNat_toNat]

theorem mem_encode_iff {b : UInt8} (hb : b < 0x80) (text : String) :
    b ∈ encode text ↔ Char.ofNat b.toNat ∈ text.toList := by
  unfold encode encodeChars
  rw [List.mem_flatMap]
  constructor
  · rintro ⟨c, hc, hmem⟩
    rwa [← (mem_encodeChar_iff hb c).mp hmem]
  · intro h
    exact ⟨_, h, (mem_encodeChar_iff hb _).mpr rfl⟩

theorem zero_mem_encode_iff (text : String) : 0 ∈ encode text ↔ '\x00' ∈ text.toList :=
  mem_encode_iff (by decide) text

/-! ## Strict reading -/

theorem map_cons_eq_ok {c : Char} {rest : Except Fault (List Char)} {chars : List Char}
    (h : (c :: ·) <$> rest = .ok chars) : ∃ others, rest = .ok others ∧ chars = c :: others := by
  cases rest with
  | error fault => cases h
  | ok others =>
    cases h
    exact ⟨others, rfl, rfl⟩

/-- A byte inside a sequence is in the range that is expected, and adds six bits. -/
theorem decodeFrom_some_eq_ok {index bits after read : Nat} {low high : UInt8} {bytes : Bytes}
    {chars : List Char} (hlow : 0x80 ≤ low.toNat) (hhigh : high.toNat ≤ 0xBF)
    (h : decodeFrom index (some ⟨bits, low, high, after, read⟩) bytes = .ok chars) :
    ∃ n rest, n < 0x40 ∧ low.toNat ≤ n + 0x80 ∧ n + 0x80 ≤ high.toNat ∧
      bytes = UInt8.ofNat (n + 0x80) :: rest ∧ match after with
        | 0 => ∃ others, chars = Char.ofNat (bits * 64 + n) :: others ∧
          ∃ index, decodeFrom index none rest = .ok others
        | after + 1 => decodeFrom index (some ⟨bits * 64 + n, 0x80, 0xBF, after, read + 1⟩) rest =
          .ok chars := by
  cases bytes with
  | nil => cases h
  | cons b rest =>
    rw [decodeFrom, Partial.next] at h
    by_cases hrange : low ≤ b ∧ b ≤ high
    · rw [if_pos hrange] at h
      rw [UInt8.le_iff_toNat_le, UInt8.le_iff_toNat_le] at hrange
      have hb : b.toNat - 0x80 + 0x80 = b.toNat := by omega
      refine ⟨b.toNat - 0x80, rest, by omega, by omega, by omega, ?_, ?_⟩
      · rw [hb, UInt8.ofNat_toNat]
      · cases after with
        | zero =>
          obtain ⟨others, hothers, rfl⟩ := map_cons_eq_ok h
          exact ⟨others, rfl, _, hothers⟩
        | succ after => exact h
    · rw [if_neg hrange] at h
      cases h

theorem first_cases (b : UInt8) :
    (∃ n < 0x80, b = UInt8.ofNat n) ∨ (∃ n < 0x20, 2 ≤ n ∧ b = UInt8.ofNat (n + 0xC0)) ∨
      (∃ n < 0x10, b = UInt8.ofNat (n + 0xE0)) ∨ (∃ n < 5, b = UInt8.ofNat (n + 0xF0)) ∨
        first b = .reject := by
  have hb : b = UInt8.ofNat b.toNat := UInt8.ofNat_toNat.symm
  have hlt := b.toNat_lt
  by_cases h1 : b.toNat < 0x80
  · exact .inl ⟨b.toNat, h1, hb⟩
  by_cases h2 : 0xC2 ≤ b.toNat ∧ b.toNat < 0xE0
  · refine .inr (.inl ⟨b.toNat - 0xC0, by omega, by omega, ?_⟩)
    rwa [Nat.sub_add_cancel (by omega)]
  by_cases h3 : 0xE0 ≤ b.toNat ∧ b.toNat < 0xF0
  · refine .inr (.inr (.inl ⟨b.toNat - 0xE0, by omega, ?_⟩))
    rwa [Nat.sub_add_cancel (by omega)]
  by_cases h4 : 0xF0 ≤ b.toNat ∧ b.toNat < 0xF5
  · refine .inr (.inr (.inr (.inl ⟨b.toNat - 0xF0, by omega, ?_⟩)))
    rwa [Nat.sub_add_cancel (by omega)]
  refine .inr (.inr (.inr (.inr ?_)))
  unfold first
  simp only [UInt8.lt_iff_toNat_lt]
  change (if b.toNat < 0x80 then _ else if b.toNat < 0xC2 then _ else if b.toNat < 0xE0 then _
    else if b.toNat < 0xF0 then _ else if b.toNat < 0xF5 then _ else _) = _
  split
  · omega
  split
  · rfl
  split
  · omega
  split
  · omega
  split
  · omega
  · rfl

/-- What is read at the start of bytes is the bytes of one character. -/
theorem exists_form_of_decodeFrom {index : Nat} {b : UInt8} {rest : Bytes} {chars : List Char}
    (h : decodeFrom index none (b :: rest) = .ok chars) :
    ∃ c front behind others, CharForm c front ∧ b :: rest = front ++ behind ∧
      chars = c :: others ∧ ∃ index, decodeFrom index none behind = .ok others := by
  rw [decodeFrom] at h
  rcases first_cases b with ⟨n, hn, rfl⟩ | ⟨n, hn, hlow, rfl⟩ | ⟨n, hn, rfl⟩ | ⟨n, hn, rfl⟩ | hb
  · rw [first_of_one n hn] at h
    obtain ⟨others, hothers, rfl⟩ := map_cons_eq_ok h
    exact ⟨_, _, _, _, .one hn, rfl, rfl, _, hothers⟩
  · rw [first_of_two n hn hlow] at h
    obtain ⟨m, behind, hm, -, -, rfl, others, rfl, hothers⟩ :=
      decodeFrom_some_eq_ok (by decide) (by decide) h
    exact ⟨_, _, _, _, .two hn hlow hm, rfl, rfl, hothers⟩
  · rw [first_of_three n hn] at h
    obtain ⟨m, rest', hm, hfrom, hto, rfl, h'⟩ := decodeFrom_some_eq_ok
      (by split <;> decide) (by split <;> decide) h
    obtain ⟨hlow, hsurrogate⟩ := (second_of_three hm).mp ⟨hfrom, hto⟩
    obtain ⟨k, behind, hk, -, -, rfl, others, rfl, hothers⟩ :=
      decodeFrom_some_eq_ok (by decide) (by decide) h'
    exact ⟨_, _, _, _, .three hn hlow hsurrogate hm hk, rfl, rfl, hothers⟩
  · rw [first_of_four n hn] at h
    obtain ⟨m, rest', hm, hfrom, hto, rfl, h'⟩ := decodeFrom_some_eq_ok
      (by split <;> decide) (by split <;> decide) h
    obtain ⟨hlow, hhigh⟩ := (second_of_four hm).mp ⟨hfrom, hto⟩
    obtain ⟨k, rest'', hk, -, -, rfl, h''⟩ := decodeFrom_some_eq_ok (by decide) (by decide) h'
    obtain ⟨l, behind, hl, -, -, rfl, others, rfl, hothers⟩ :=
      decodeFrom_some_eq_ok (by decide) (by decide) h''
    exact ⟨_, _, _, _, .four hn hlow hhigh hm hk hl, rfl, rfl, hothers⟩
  · rw [hb] at h
    cases h

theorem encodeChars_of_decodeFrom {index : Nat} {bytes : Bytes} {chars : List Char}
    (h : decodeFrom index none bytes = .ok chars) : encodeChars chars = bytes := by
  -- A character takes one to four bytes, so that the induction is on the number of bytes.
  induction hlength : bytes.length using Nat.strongRecOn generalizing index bytes chars with
  | _ length ih =>
    cases bytes with
    | nil =>
      cases h
      rfl
    | cons b rest =>
      obtain ⟨c, front, behind, others, form, hbytes, rfl, index', hothers⟩ :=
        exists_form_of_decodeFrom h
      have hpos := List.length_pos_iff.mpr form.ne_nil
      have hshort : behind.length < length := by
        rw [← hlength, hbytes, List.length_append]
        omega
      rw [hbytes, ← ih _ hshort hothers rfl, ← encodeChar_of_form form]
      rfl

/-- Bytes that are read as a string are the bytes of that string. -/
theorem encode_of_decode {bytes : Bytes} {text : String} (h : decode bytes = .ok text) :
    encode text = bytes := by
  unfold decode decodeChars at h
  cases hchars : decodeFrom 0 none bytes with
  | error fault =>
    rw [hchars] at h
    cases h
  | ok chars =>
    rw [hchars] at h
    cases h
    rw [encode, String.toList_ofList, encodeChars_of_decodeFrom hchars]

theorem length_le_encode (text : String) : text.length ≤ (encode text).length := by
  rw [← String.length_toList]
  unfold encode encodeChars
  induction text.toList with
  | nil => exact Nat.le_refl 0
  | cons c rest ih =>
    have hpos : 0 < (String.utf8EncodeChar c).length :=
      String.length_utf8EncodeChar c ▸ c.utf8Size_pos
    rw [List.flatMap_cons, List.length_append, List.length_cons]
    omega

end Utf8

end BinaryXml
