import BinaryXml.Opaque.Encoding
import BinaryXml.Proofs.Text.Numeral
import BinaryXml.Proofs.Text.Whitespace

/-! # Opaque data in several blocks

* `Base64.decode_encode` and `Hex.decode_encode`: the text of some bytes is read as these bytes.
* `OpaqueEncoding.unit`: how many bytes become whole characters.
* `OpaqueEncoding.decode_join`: the texts of several blocks, put together, are the text of all their
  bytes just if each block but the last is a multiple of that.
-/

namespace BinaryXml

set_option autoImplicit false

/-! ## Base64 -/

namespace Base64

theorem value?_symbol : ∀ value < 64, value? (symbol value) = some value := by decide

theorem value?_pad : value? '=' = none := by decide

theorem symbol_ne_pad {value : Nat} (h : value < 64) : symbol value ≠ '=' := by
  intro hpad
  have hvalue := value?_symbol value h
  rw [hpad, value?_pad] at hvalue
  cases hvalue

/-- Four characters are a whole group if another one follows or the last is no padding. -/
theorem decode_group {a b c d : Char} {rest : List Char} (h : rest ≠ [] ∨ d ≠ '=') :
    decode (a :: b :: c :: d :: rest) = (do
      let a ← value? a
      let b ← value? b
      let c ← value? c
      let d ← value? d
      let tail ← decode rest
      some (UInt8.ofNat (a * 4 + b / 16) :: UInt8.ofNat (b % 16 * 16 + c / 4) ::
        UInt8.ofNat (c % 4 * 64 + d) :: tail)) := by
  rw [decode]
  · rintro rfl rfl rfl
    simp at h
  · rintro rfl rfl
    simp at h

/-- Three bytes are what the values of their four characters say. -/
theorem bytes_of_values (a b c : UInt8) :
    UInt8.ofNat (a.toNat / 4 * 4 + (a.toNat % 4 * 16 + b.toNat / 16) / 16) = a ∧
      UInt8.ofNat ((a.toNat % 4 * 16 + b.toNat / 16) % 16 * 16 +
        (b.toNat % 16 * 4 + c.toNat / 64) / 4) = b ∧
      UInt8.ofNat ((b.toNat % 16 * 4 + c.toNat / 64) % 4 * 64 + c.toNat % 64) = c := by
  have ha := a.toNat_lt
  have hb := b.toNat_lt
  have hc := c.toNat_lt
  refine ⟨?_, ?_, ?_⟩
  · rw [show a.toNat / 4 * 4 + (a.toNat % 4 * 16 + b.toNat / 16) / 16 = a.toNat by omega,
      UInt8.ofNat_toNat]
  · rw [show (a.toNat % 4 * 16 + b.toNat / 16) % 16 * 16 +
      (b.toNat % 16 * 4 + c.toNat / 64) / 4 = b.toNat by omega, UInt8.ofNat_toNat]
  · rw [show (b.toNat % 16 * 4 + c.toNat / 64) % 4 * 64 + c.toNat % 64 = c.toNat by omega,
      UInt8.ofNat_toNat]

theorem values_of_bytes (a b c : UInt8) :
    value? (symbol (a.toNat / 4)) = some (a.toNat / 4) ∧
      value? (symbol (a.toNat % 4 * 16 + b.toNat / 16)) = some (a.toNat % 4 * 16 + b.toNat / 16) ∧
      value? (symbol (b.toNat % 16 * 4 + c.toNat / 64)) = some (b.toNat % 16 * 4 + c.toNat / 64) ∧
      value? (symbol (c.toNat % 64)) = some (c.toNat % 64) := by
  have ha := a.toNat_lt
  have hb := b.toNat_lt
  have hc := c.toNat_lt
  refine ⟨value?_symbol _ ?_, value?_symbol _ ?_, value?_symbol _ ?_, value?_symbol _ ?_⟩ <;> omega

theorem decode_bytes {a b c : UInt8} {rest : List Char}
    (h : rest ≠ [] ∨ symbol (c.toNat % 64) ≠ '=') :
    decode (symbol (a.toNat / 4) :: symbol (a.toNat % 4 * 16 + b.toNat / 16) ::
      symbol (b.toNat % 16 * 4 + c.toNat / 64) :: symbol (c.toNat % 64) :: rest) =
        (decode rest).map (a :: b :: c :: ·) := by
  obtain ⟨hfirst, hsecond, hthird⟩ := bytes_of_values a b c
  obtain ⟨ha, hab, hbc, hc⟩ := values_of_bytes a b c
  rw [decode_group h, ha, hab, hbc, hc]
  simp only [Option.bind_eq_bind, Option.bind_some, hfirst, hsecond, hthird]
  cases decode rest <;> rfl

/-- The text of some bytes is read as these bytes. -/
theorem decode_encode : ∀ data : Bytes, decode (encode data) = some data
  | [] => rfl
  | [a] => by
    obtain ⟨hfirst, -, -⟩ := bytes_of_values a 0 0
    obtain ⟨ha, hab, -, -⟩ := values_of_bytes a 0 0
    simp only [UInt8.toNat_zero, Nat.zero_div, Nat.add_zero] at hfirst hab
    simp only [encode, decode, ha, hab, Option.bind_eq_bind, Option.bind_some, hfirst]
  | [a, b] => by
    obtain ⟨hfirst, hsecond, -⟩ := bytes_of_values a b 0
    obtain ⟨ha, hab, hbc, -⟩ := values_of_bytes a b 0
    simp only [UInt8.toNat_zero, Nat.zero_div, Nat.add_zero] at hsecond hbc
    have hpad : symbol (b.toNat % 16 * 4) ≠ '=' := symbol_ne_pad (by omega)
    rw [encode, decode]
    · simp only [ha, hab, hbc, Option.bind_eq_bind, Option.bind_some, hfirst, hsecond]
    · exact hpad
  | a :: b :: c :: rest => by
    have hpad : symbol (c.toNat % 64) ≠ '=' := symbol_ne_pad (Nat.mod_lt _ (by decide))
    rw [encode, decode_bytes (.inr hpad), decode_encode rest]
    rfl

/-- Where more characters follow, no byte may be missing from the last group. -/
theorem decode_encode_append {rest : List Char} (h : rest ≠ []) : ∀ front : Bytes,
    decode (encode front ++ rest) =
      if 3 ∣ front.length then (decode rest).map (front ++ ·) else none
  | [] => by
    have hlength : 3 ∣ ([] : Bytes).length := Nat.dvd_zero 3
    rw [if_pos hlength]
    exact Option.map_id'.symm
  | [a] => by
    have hlength : ¬ 3 ∣ [a].length := by simp
    rw [if_neg hlength]
    change decode (_ :: _ :: '=' :: '=' :: rest) = none
    rw [decode_group (.inl h), value?_pad]
    simp
  | [a, b] => by
    have hlength : ¬ 3 ∣ [a, b].length := by simp
    rw [if_neg hlength]
    change decode (_ :: _ :: _ :: '=' :: rest) = none
    rw [decode_group (.inl h), value?_pad]
    simp
  | a :: b :: c :: front => by
    have hrest : encode front ++ rest ≠ [] := List.append_ne_nil_of_right_ne_nil _ h
    rw [encode]
    simp only [List.cons_append]
    rw [decode_bytes (.inl hrest), decode_encode_append h front]
    have hlength : 3 ∣ (a :: b :: c :: front).length ↔ 3 ∣ front.length :=
      Nat.dvd_add_self_right
    simp only [hlength]
    split
    · cases decode rest <;> rfl
    · rfl

/-- Bytes that fill whole groups do not change the groups behind them. -/
theorem encode_append {back : Bytes} : ∀ {front : Bytes}, 3 ∣ front.length →
    encode (front ++ back) = encode front ++ encode back
  | [], _ => rfl
  | [_], h => absurd (show 3 ∣ 1 from h) (by decide)
  | [_, _], h => absurd (show 3 ∣ 2 from h) (by decide)
  | _ :: _ :: _ :: front, h => by
    have hfront : 3 ∣ front.length := Nat.dvd_add_self_right.mp h
    simp only [List.cons_append, encode, encode_append hfront]

theorem encode_eq_nil_iff {data : Bytes} : encode data = [] ↔ data = [] := by
  match data with
  | [] => simp [encode]
  | [_] => simp [encode]
  | [_, _] => simp [encode]
  | _ :: _ :: _ :: _ => simp [encode]

theorem length_encode : ∀ data : Bytes, (encode data).length = (data.length + 2) / 3 * 4
  | [] | [_] | [_, _] => by simp [encode]
  | _ :: _ :: _ :: rest => by
    simp only [encode, List.length_cons, length_encode rest]
    omega

theorem isBlank_symbol (value : Nat) : Blank.isBlank (symbol value) = false := by
  by_cases hlt : value < 62
  · revert value
    decide
  · unfold symbol
    rw [if_neg (by omega), if_neg (by omega), if_neg hlt]
    split <;> decide

theorem isBlank_of_mem_encode {c : Char} : ∀ {data : Bytes}, c ∈ encode data →
    Blank.isBlank c = false
  | [], h => by cases h
  | [_], h => by
    simp only [encode, List.mem_cons, List.not_mem_nil, or_false] at h
    rcases h with rfl | rfl | rfl | rfl <;> first | exact isBlank_symbol _ | rfl
  | [_, _], h => by
    simp only [encode, List.mem_cons, List.not_mem_nil, or_false] at h
    rcases h with rfl | rfl | rfl | rfl <;> first | exact isBlank_symbol _ | rfl
  | _ :: _ :: _ :: rest, h => by
    simp only [encode, List.mem_cons] at h
    rcases h with rfl | rfl | rfl | rfl | h
    · exact isBlank_symbol _
    · exact isBlank_symbol _
    · exact isBlank_symbol _
    · exact isBlank_symbol _
    · exact isBlank_of_mem_encode h

end Base64

/-! ## Hexadecimal text -/

namespace Hex

theorem decode_encode_append (rest : List Char) (front : Bytes) :
    decode (encode front ++ rest) = (decode rest).map (front ++ ·) := by
  induction front with
  | nil => exact Option.map_id'.symm
  | cons b front ih =>
    have hlt := b.toNat_lt
    have hhigh := Numeral.digitValue?_digit (b.toNat / 16) (by omega)
    have hlow := Numeral.digitValue?_digit (b.toNat % 16) (by omega)
    have hbyte : UInt8.ofNat (b.toNat / 16 * 16 + b.toNat % 16) = b := by
      rw [Nat.div_add_mod', UInt8.ofNat_toNat]
    change decode (_ :: _ :: (encode front ++ rest)) = _
    rw [decode, ih, hhigh, hlow]
    simp only [Option.bind_eq_bind, Option.bind_some, hbyte]
    cases decode rest <;> rfl

theorem encode_append (front back : Bytes) :
    encode (front ++ back) = encode front ++ encode back :=
  List.flatMap_append

theorem encode_eq_nil_iff {data : Bytes} : encode data = [] ↔ data = [] := by
  cases data with
  | nil => simp [encode]
  | cons b rest => simp [encode]

theorem length_encode (data : Bytes) : (encode data).length = data.length * 2 := by
  rw [encode, List.length_flatMap]
  simp

theorem isBlank_of_mem_encode {c : Char} {data : Bytes} (h : c ∈ encode data) :
    Blank.isBlank c = false := by
  have hdigit : ∀ value < 16, Blank.isBlank (Numeral.digit value) = false := by decide
  obtain ⟨b, -, hb⟩ := List.mem_flatMap.mp h
  have hlt := b.toNat_lt
  simp only [List.mem_cons, List.not_mem_nil, or_false] at hb
  rcases hb with rfl | rfl
  · exact hdigit _ (by omega)
  · exact hdigit _ (by omega)

end Hex

/-! ## Blocks -/

namespace OpaqueEncoding

def encodeChars (encoding : OpaqueEncoding) (data : Bytes) : List Char :=
  match encoding with
  | .base64 => Base64.encode data
  | .hex => Hex.encode data

def decodeChars (encoding : OpaqueEncoding) (chars : List Char) : Option Bytes :=
  match encoding with
  | .base64 => Base64.decode chars
  | .hex => Hex.decode chars

/-- How many bytes become whole characters. -/
def unit : OpaqueEncoding → Nat
  | .base64 => 3
  | .hex => 1

/-- Every block that more bytes follow has whole characters. -/
def Aligned (encoding : OpaqueEncoding) (blocks : List Bytes) : Prop :=
  blocks.Pairwise fun front back => back ≠ [] → encoding.unit ∣ front.length

instance (encoding : OpaqueEncoding) (blocks : List Bytes) : Decidable (encoding.Aligned blocks) :=
  inferInstanceAs (Decidable (blocks.Pairwise _))

variable {encoding : OpaqueEncoding} {blocks : List Bytes}

theorem encode_eq (data : Bytes) :
    encoding.encode data = String.ofList (encoding.encodeChars data) := by
  cases encoding <;> rfl

theorem decode_eq (text : String) : encoding.decode text =
    (encoding.decodeChars text.toList).filter fun data => encoding.encode data == text := by
  cases encoding <;> rfl

theorem length_encode_le (encoding : OpaqueEncoding) (data : Bytes) :
    (encoding.encode data).length ≤ 2 * (data.length + 1) := by
  cases encoding with
  | base64 =>
    rw [encode, String.length_ofList, Base64.length_encode]
    omega
  | hex =>
    rw [encode, String.length_ofList, Hex.length_encode]
    omega

theorem encodeChars_append {front : Bytes} (h : encoding.unit ∣ front.length) (back : Bytes) :
    encoding.encodeChars (front ++ back) =
      encoding.encodeChars front ++ encoding.encodeChars back := by
  cases encoding with
  | base64 => exact Base64.encode_append h
  | hex => exact Hex.encode_append front back

theorem encodeChars_eq_nil_iff {data : Bytes} : encoding.encodeChars data = [] ↔ data = [] := by
  cases encoding with
  | base64 => exact Base64.encode_eq_nil_iff
  | hex => exact Hex.encode_eq_nil_iff

theorem decodeChars_encodeChars (data : Bytes) :
    encoding.decodeChars (encoding.encodeChars data) = some data := by
  cases encoding with
  | base64 => exact Base64.decode_encode data
  | hex =>
    have h := Hex.decode_encode_append [] data
    rwa [List.append_nil, Hex.decode, Option.map_some, List.append_nil] at h

theorem decodeChars_append {rest : List Char} (h : rest ≠ []) (front : Bytes) :
    encoding.decodeChars (encoding.encodeChars front ++ rest) =
      if encoding.unit ∣ front.length then (encoding.decodeChars rest).map (front ++ ·)
      else none := by
  cases encoding with
  | base64 => exact Base64.decode_encode_append h front
  | hex =>
    have hunit : hex.unit ∣ front.length := Nat.one_dvd _
    rw [if_pos hunit]
    exact Hex.decode_encode_append rest front

theorem isBlank_of_mem_encodeChars {data : Bytes} {c : Char} (h : c ∈ encoding.encodeChars data) :
    Blank.isBlank c = false := by
  cases encoding with
  | base64 => exact Base64.isBlank_of_mem_encode h
  | hex => exact Hex.isBlank_of_mem_encode h

theorem flatMap_encodeChars_eq_nil_iff :
    blocks.flatMap encoding.encodeChars = [] ↔ blocks.flatten = [] := by
  simp only [List.flatMap_eq_nil_iff, encodeChars_eq_nil_iff, List.flatten_eq_nil_iff]

/-- A block that more bytes follow must have whole characters itself. -/
theorem aligned_cons_iff {first : Bytes} : encoding.Aligned (first :: blocks) ↔
    (blocks.flatten ≠ [] → encoding.unit ∣ first.length) ∧ encoding.Aligned blocks := by
  rw [Aligned, List.pairwise_cons]
  refine and_congr_left' ?_
  rw [Ne, List.flatten_eq_nil_iff]
  constructor
  · intro h hsome
    by_contra hwhole
    refine hsome fun back hmem => ?_
    by_contra hback
    exact hwhole (h back hmem hback)
  · intro h back hmem hback
    exact h fun hnone => hback (hnone back hmem)

theorem aligned_of_flatten_eq_nil (h : blocks.flatten = []) : encoding.Aligned blocks :=
  List.pairwise_of_forall_mem_list fun _ _ back hmem hback =>
    absurd (List.flatten_eq_nil_iff.mp h back hmem) hback

/-- The characters of blocks are the ones of all their bytes if the blocks are aligned. -/
theorem encodeChars_flatten (h : encoding.Aligned blocks) :
    encoding.encodeChars blocks.flatten = blocks.flatMap encoding.encodeChars := by
  induction blocks with
  | nil => exact encodeChars_eq_nil_iff.mpr rfl
  | cons first blocks ih =>
    obtain ⟨hfirst, hrest⟩ := aligned_cons_iff.mp h
    rw [List.flatten_cons, List.flatMap_cons]
    by_cases hempty : blocks.flatten = []
    · rw [hempty, flatMap_encodeChars_eq_nil_iff.mpr hempty, List.append_nil, List.append_nil]
    · rw [encodeChars_append (hfirst hempty), ih hrest]

/-- They are read as all these bytes, and else they are not read at all. -/
theorem decodeChars_flatMap (blocks : List Bytes) :
    encoding.decodeChars (blocks.flatMap encoding.encodeChars) =
      if encoding.Aligned blocks then some blocks.flatten else none := by
  induction blocks with
  | nil =>
    have hnil : encoding.encodeChars [] = [] := encodeChars_eq_nil_iff.mpr rfl
    have hread := @decodeChars_encodeChars encoding []
    rw [hnil] at hread
    rw [if_pos .nil]
    exact hread
  | cons first blocks ih =>
    rw [List.flatMap_cons, List.flatten_cons]
    by_cases hempty : blocks.flatten = []
    · -- The first block is the last one with bytes, so it may end with an incomplete group.
      have haligned : encoding.Aligned (first :: blocks) :=
        aligned_cons_iff.mpr ⟨fun hsome => absurd hempty hsome, aligned_of_flatten_eq_nil hempty⟩
      rw [if_pos haligned, flatMap_encodeChars_eq_nil_iff.mpr hempty, hempty, List.append_nil,
        List.append_nil]
      exact decodeChars_encodeChars first
    · have hrest := mt (@flatMap_encodeChars_eq_nil_iff encoding blocks).mp hempty
      rw [decodeChars_append hrest, ih]
      simp only [aligned_cons_iff, ne_eq, hempty, not_false_eq_true, forall_const]
      by_cases hwhole : encoding.unit ∣ first.length
      · by_cases haligned : encoding.Aligned blocks <;> simp [hwhole, haligned]
      · simp [hwhole]

theorem toList_join (blocks : List Bytes) :
    (String.join (blocks.map encoding.encode)).toList = blocks.flatMap encoding.encodeChars := by
  induction blocks with
  | nil => rfl
  | cons first blocks ih =>
    rw [List.map_cons, String.join_cons, String.toList_append, ih, encode_eq, String.toList_ofList,
      List.flatMap_cons]

/-- The texts of blocks, put together, are the text of all their bytes if the blocks are aligned,
and else they are the text of nothing. -/
theorem decode_join (encoding : OpaqueEncoding) (blocks : List Bytes) :
    encoding.decode (String.join (blocks.map encoding.encode)) =
      if encoding.Aligned blocks then some blocks.flatten else none := by
  rw [decode_eq, toList_join, decodeChars_flatMap]
  split
  · -- What was read also has to give the same text again.
    rename_i haligned
    have htext : encoding.encode blocks.flatten = String.join (blocks.map encoding.encode) := by
      rw [← String.toList_inj, toList_join, encode_eq, String.toList_ofList,
        encodeChars_flatten haligned]
    rw [Option.filter_some, if_pos (by simp [htext])]
  · rfl

end OpaqueEncoding

/-! ## White space -/

theorem Whitespace.apply_of_not_blank (whitespace : Whitespace) {text : String} (hne : text ≠ "")
    (h : ∀ c ∈ text.toList, Blank.isBlank c = false) : whitespace.apply text = some text := by
  cases whitespace with
  | preserve => exact preserve_apply_iff.mpr ⟨hne, rfl⟩
  | strip =>
    refine strip_apply_iff.mpr ⟨hne, (Blank.trim_eq_self_iff.mpr ⟨?_, ?_⟩).symm⟩
    · exact fun c hc => h c (List.mem_of_mem_head? hc)
    · exact fun c hc => h c (List.mem_of_mem_getLast? hc)

theorem OpaqueEncoding.apply_join (encoding : OpaqueEncoding) (whitespace : Whitespace)
    {blocks : List Bytes} (h : blocks.flatten ≠ []) :
    whitespace.apply (String.join (blocks.map encoding.encode)) =
      some (String.join (blocks.map encoding.encode)) := by
  refine whitespace.apply_of_not_blank (fun hempty => ?_) fun c hc => ?_
  · have hchars := @toList_join encoding blocks
    rw [hempty] at hchars
    exact h (flatMap_encodeChars_eq_nil_iff.mp hchars.symm)
  · rw [toList_join] at hc
    obtain ⟨block, -, hmem⟩ := List.mem_flatMap.mp hc
    exact isBlank_of_mem_encodeChars hmem

end BinaryXml
