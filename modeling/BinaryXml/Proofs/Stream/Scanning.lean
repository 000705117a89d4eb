import BinaryXml.Proofs.Stream.Forms

/-! # What the front of some bytes says about a number

* `Number.OverflowsAt`: groups that leave no room for seven more bits, in front of another byte.
* `Number.EndsAt`: the first byte without the continuation bit.
* `Number.scanWords`: the same scan with words of 32 bits. `scanWords_eq_scanFrom` says that no word
  loses a bit.
* `Reader.number_exact`: what is read as a number at any place of any bytes, and where the cursor
  is afterwards.
-/

namespace BinaryXml

set_option autoImplicit false

/-- The cursor at a place of some bytes. -/
def Cursor.within (data : Bytes) (place : Nat) : Cursor :=
  ⟨place, data.drop place⟩

namespace Number

/-! ## Groups in front -/

/-- All bytes carry the continuation bit. -/
def Continued (bytes : Bytes) : Prop :=
  ∀ b ∈ bytes, 0x80 ≤ b

/-- The first `count` bytes carry the continuation bit and leave no room for seven more bits behind
the groups of `value`, but there is another byte. -/
def OverflowsAt (value : Nat) (bytes : Bytes) (count : Nat) : Prop :=
  count < bytes.length ∧ Continued (bytes.take count) ∧ 2 ^ 25 ≤ groupsFrom value (bytes.take count)

/-- More than 32 bits are found before the bytes end and before the number does. -/
def Overflows (bytes : Bytes) : Prop :=
  ∃ count, OverflowsAt 0 bytes count

/-- The first byte without the continuation bit is the last of `count` bytes. -/
def EndsAt (bytes : Bytes) (count : Nat) : Prop :=
  ∃ groups last rest, bytes = groups ++ last :: rest ∧ Continued groups ∧ last < 0x80 ∧
    count = groups.length + 1

instance (bytes : Bytes) : Decidable (Continued bytes) :=
  inferInstanceAs (Decidable (∀ b ∈ bytes, 0x80 ≤ b))

instance (value : Nat) (bytes : Bytes) (count : Nat) : Decidable (OverflowsAt value bytes count) :=
  inferInstanceAs (Decidable (_ ∧ _ ∧ _))

instance (bytes : Bytes) : Decidable (Overflows bytes) :=
  decidable_of_iff (∃ count, count < bytes.length ∧ OverflowsAt 0 bytes count)
    (exists_congr fun _ => and_iff_right_of_imp fun h => h.1)

section Groups
variable {value size count : Nat} {bytes : Bytes}

theorem continued_cons {b : UInt8} : Continued (b :: bytes) ↔ 0x80 ≤ b ∧ Continued bytes :=
  List.forall_mem_cons

theorem overflowsAt_zero {b : UInt8} : OverflowsAt value (b :: bytes) 0 ↔ 0x2000000 ≤ value := by
  simp [OverflowsAt, Continued]

theorem overflowsAt_succ {b : UInt8} : OverflowsAt value (b :: bytes) (count + 1) ↔
    0x80 ≤ b ∧ OverflowsAt (value * 128 + b.toNat % 128) bytes count := by
  unfold OverflowsAt
  rw [List.length_cons, List.take_succ_cons, continued_cons, groupsFrom_cons]
  constructor
  · rintro ⟨hmore, ⟨hb, hcontinued⟩, hlarge⟩
    exact ⟨hb, Nat.lt_of_succ_lt_succ hmore, hcontinued, hlarge⟩
  · rintro ⟨hb, hmore, hcontinued, hlarge⟩
    exact ⟨Nat.succ_lt_succ hmore, ⟨hb, hcontinued⟩, hlarge⟩

/-- Either there is a byte without the continuation bit, and a first one, or there is none. -/
theorem continued_or_endsAt (bytes : Bytes) : Continued bytes ∨ ∃ count, EndsAt bytes count := by
  induction bytes with
  | nil => exact .inl (List.forall_mem_nil _)
  | cons b rest ih =>
    by_cases hb : b < 0x80
    · exact .inr ⟨1, [], b, rest, rfl, List.forall_mem_nil _, hb, rfl⟩
    · rw [UInt8.not_lt] at hb
      rcases ih with hrest | ⟨_, groups, last, behind, rfl, hgroups, hlast, rfl⟩
      · exact .inl (continued_cons.mpr ⟨hb, hrest⟩)
      · exact .inr ⟨_, b :: groups, last, behind, rfl, continued_cons.mpr ⟨hb, hgroups⟩, hlast, rfl⟩

/-! ## Scans -/

theorem scanFrom_of_overflowsAt (size : Nat) (h : OverflowsAt value bytes count) :
    ∃ first, OverflowsAt value bytes first ∧
      scanFrom value size bytes = .overflow (size + first) (bytes.drop first) := by
  -- Room that is missing further on may be missing earlier, hence the first place.
  induction bytes generalizing value size count with
  | nil => exact absurd h.1 (Nat.not_lt_zero _)
  | cons b rest ih =>
    by_cases hlarge : 0x2000000 ≤ value
    · refine ⟨0, overflowsAt_zero.mpr hlarge, ?_⟩
      rw [scanFrom, if_pos hlarge]
      rfl
    · cases count with
      | zero => exact absurd (overflowsAt_zero.mp h) hlarge
      | succ count =>
        obtain ⟨hb, hrest⟩ := overflowsAt_succ.mp h
        obtain ⟨first, hfirst, hscan⟩ := ih (size + 1) hrest
        refine ⟨first + 1, overflowsAt_succ.mpr ⟨hb, hfirst⟩, ?_⟩
        rw [scanFrom, if_neg hlarge]
        dsimp only
        rw [if_neg (UInt8.not_lt.mpr hb), hscan, List.drop_succ_cons, Nat.add_assoc,
          Nat.add_comm 1 first]

theorem scanFrom_of_continued (size : Nat) (hcontinued : Continued bytes)
    (h : ∀ count, ¬ OverflowsAt value bytes count) : scanFrom value size bytes = .truncated := by
  induction bytes generalizing value size with
  | nil => rfl
  | cons b rest ih =>
    obtain ⟨hb, hrest⟩ := continued_cons.mp hcontinued
    rw [scanFrom, if_neg (mt overflowsAt_zero.mpr (h 0))]
    dsimp only
    rw [if_neg (UInt8.not_lt.mpr hb)]
    exact ih _ hrest fun count hcount => h (count + 1) (overflowsAt_succ.mpr ⟨hb, hcount⟩)

/-- Where nothing overflows, 32 bits hold the groups up to the first byte without the bit. -/
theorem groupsFrom_lt_of_endsAt (hends : EndsAt bytes count)
    (h : ∀ count, ¬ OverflowsAt value bytes count) :
    groupsFrom value (bytes.take count) < 2 ^ 32 := by
  obtain ⟨groups, last, rest, rfl, hgroups, hlast, rfl⟩ := hends
  have hsmall : groupsFrom value groups < 2 ^ 25 := by
    refine Nat.lt_of_not_le fun hlarge => h groups.length ⟨by simp, ?_, ?_⟩
    · rwa [List.take_left]
    · rwa [List.take_left]
  have htake : (groups ++ last :: rest).take (groups.length + 1) = groups ++ [last] := by
    rw [List.take_length_add_append]
    rfl
  rw [htake, groupsFrom_append, groupsFrom_cons, groupsFrom_nil]
  omega

theorem scan_of_endsAt (hends : EndsAt bytes count) (h : ∀ count, ¬ OverflowsAt 0 bytes count) :
    scan bytes = .value (UInt32.ofNat (groupsFrom 0 (bytes.take count))) count
      (bytes.drop count) := by
  have hbound := groupsFrom_lt_of_endsAt hends h
  obtain ⟨groups, last, rest, rfl, hgroups, hlast, rfl⟩ := hends
  rw [List.take_length_add_append] at hbound ⊢
  rw [List.drop_length_add_append, scan, scanFrom_groups groups rest last 0 0 hgroups hlast hbound,
    Nat.zero_add]
  rfl

end Groups

/-! ## Words of 32 bits -/

/-- Reads on like `scanFrom`, with a word that is shifted and takes a group into its low bits. -/
def scanWords (value : UInt32) (size : Nat) : Bytes → Scan
  | [] => .truncated
  | b :: rest =>
    if (0xFFFFFFFF : UInt32) >>> 7 < value then .overflow size (b :: rest)
    else
      let value := value <<< 7 ||| (b &&& 0x7F).toUInt32
      if b &&& 0x80 = 0 then .value value (size + 1) rest
      else scanWords value (size + 1) rest

theorem continuation_bit : ∀ b : UInt8, b &&& 0x80 = 0 ↔ b < 0x80 := by
  apply byte_forall
  decide +kernel

theorem group_bits (b : UInt8) : (b &&& 0x7F).toNat = b.toNat % 128 := by
  rw [UInt8.toNat_and]
  exact Nat.and_two_pow_sub_one_eq_mod b.toNat 7

/-- A word with room for seven more bits takes them in without loss. -/
theorem toNat_shiftLeft_or {value : UInt32} (h : value.toNat < 2 ^ 25) (b : UInt8) :
    (value <<< 7 ||| (b &&& 0x7F).toUInt32).toNat = value.toNat * 128 + b.toNat % 128 := by
  have hgroup : b.toNat % 128 < 2 ^ 7 := Nat.mod_lt _ (by decide)
  have hshift : (value <<< 7).toNat = value.toNat <<< 7 := by
    rw [UInt32.toNat_shiftLeft]
    exact Nat.mod_eq_of_lt (by rw [Nat.shiftLeft_eq]; simp; omega)
  rw [UInt32.toNat_or, hshift, UInt8.toNat_toUInt32, group_bits,
    ← Nat.shiftLeft_add_eq_or_of_lt hgroup, Nat.shiftLeft_eq]

/-- No word loses a bit. -/
theorem scanWords_eq_scanFrom (value : UInt32) (size : Nat) (bytes : Bytes) :
    scanWords value size bytes = scanFrom value.toNat size bytes := by
  induction bytes generalizing value size with
  | nil => rfl
  | cons b rest ih =>
    have hlimit : (0xFFFFFFFF : UInt32) >>> 7 < value ↔ 0x2000000 ≤ value.toNat := by
      rw [UInt32.lt_iff_toNat_lt]
      exact Nat.succ_le_iff.symm
    rw [scanWords, scanFrom]
    simp only [hlimit, continuation_bit]
    split
    · rfl
    · rename_i hsmall
      have hword := toNat_shiftLeft_or (Nat.lt_of_not_le hsmall) b
      rw [ih, hword, ← hword, UInt32.ofNat_toNat]

end Number

/-! ## Numbers in a byte string -/

namespace Reader

theorem number_within {data : Bytes} {place : Nat} :
    number (Cursor.within data place) = match Number.scan (data.drop place) with
      | .value value size rest => .ok value ⟨place + size, rest⟩
      | .overflow size rest =>
        .error (.decoding (.numberOverflow place)) ⟨place + size, rest⟩
      | .truncated => .error (.truncated place .number) (Cursor.within data place) := rfl

theorem within_add (data : Bytes) (place count : Nat) :
    Cursor.within data (place + count) = ⟨place + count, (data.drop place).drop count⟩ := by
  rw [List.drop_drop]
  rfl

/-- A number at any place of any bytes. Groups that cannot all fit into 32 bits are refused as soon
as one more byte is there; other groups are read exactly up to the first byte without the
continuation bit, however many there are; and where there is no such byte, the cursor returns.
Words of 32 bits are enough for all of this. -/
theorem number_exact (data : Bytes) (place : Nat) :
    let bytes := data.drop place
    (Number.Overflows bytes → ∃ count, Number.OverflowsAt 0 bytes count ∧
      number (Cursor.within data place) =
        .error (.decoding (.numberOverflow place)) (Cursor.within data (place + count))) ∧
    (¬ Number.Overflows bytes → ∀ count, Number.EndsAt bytes count →
      Number.groupsFrom 0 (bytes.take count) < 2 ^ 32 ∧
      number (Cursor.within data place) =
        .ok (UInt32.ofNat (Number.groupsFrom 0 (bytes.take count)))
          (Cursor.within data (place + count))) ∧
    (¬ Number.Overflows bytes → (∀ count, ¬ Number.EndsAt bytes count) →
      number (Cursor.within data place) =
        .error (.truncated place .number) (Cursor.within data place)) ∧
    Number.scan bytes = Number.scanWords 0 0 bytes := by
  intro bytes
  refine ⟨?_, ?_, ?_, ?_⟩
  · rintro ⟨count, hcount⟩
    obtain ⟨first, hfirst, hscan⟩ := Number.scanFrom_of_overflowsAt 0 hcount
    refine ⟨first, hfirst, ?_⟩
    rw [number_within, within_add, Number.scan, hscan, Nat.zero_add]
  · intro hnone count hends
    have hfits := not_exists.mp hnone
    refine ⟨Number.groupsFrom_lt_of_endsAt hends hfits, ?_⟩
    rw [number_within, within_add, Number.scan_of_endsAt hends hfits]
  · intro hnone hopen
    have hcontinued := (Number.continued_or_endsAt bytes).resolve_right (not_exists.mpr hopen)
    rw [number_within, Number.scan,
      Number.scanFrom_of_continued 0 hcontinued (not_exists.mp hnone)]
  · exact (Number.scanWords_eq_scanFrom 0 0 bytes).symm

/-- A number behind five groups of zeros, one that overflows in front of its last byte, and one
that the bytes end in. -/
theorem number_exact_paddedBytes :
    (¬ Number.Overflows [0x80, 0x80, 0x80, 0x80, 0x80, 0x82, 0x2C, 0x01] ∧
      number (Cursor.within [0x03, 0x80, 0x80, 0x80, 0x80, 0x80, 0x82, 0x2C, 0x01] 1) =
        .ok 300 ⟨8, [0x01]⟩) ∧
    (Number.Overflows [0x90, 0x80, 0x80, 0x80, 0x00] ∧
      ∃ cursor, number (Cursor.within [0x90, 0x80, 0x80, 0x80, 0x00] 0) =
        .error (.decoding (.numberOverflow 0)) cursor) ∧
    (¬ Number.Overflows [0x90, 0x80, 0x80, 0x80] ∧
      number (Cursor.within [0x03, 0x90, 0x80, 0x80, 0x80] 1) =
        .error (.truncated 1 .number) ⟨1, [0x90, 0x80, 0x80, 0x80]⟩) := by
  refine ⟨?_, ?_, ?_⟩
  · have hfits : ¬ Number.Overflows [0x80, 0x80, 0x80, 0x80, 0x80, 0x82, 0x2C, 0x01] := by decide
    have hends : Number.EndsAt [0x80, 0x80, 0x80, 0x80, 0x80, 0x82, 0x2C, 0x01] 7 :=
      ⟨[0x80, 0x80, 0x80, 0x80, 0x80, 0x82], 0x2C, [0x01], rfl, by decide, by decide, rfl⟩
    exact ⟨hfits, ((number_exact [0x03, 0x80, 0x80, 0x80, 0x80, 0x80, 0x82, 0x2C, 0x01] 1).2.1
      hfits 7 hends).2⟩
  · have hover : Number.Overflows [0x90, 0x80, 0x80, 0x80, 0x00] := by decide
    obtain ⟨count, -, hnumber⟩ := (number_exact [0x90, 0x80, 0x80, 0x80, 0x00] 0).1 hover
    exact ⟨hover, _, hnumber⟩
  · have hfits : ¬ Number.Overflows [0x90, 0x80, 0x80, 0x80] := by decide
    have hopen : ∀ count, ¬ Number.EndsAt [0x90, 0x80, 0x80, 0x80] count := by
      rintro count ⟨groups, last, rest, hbytes, -, hlast, -⟩
      have hcontinued : Number.Continued [0x90, 0x80, 0x80, 0x80] := by decide
      have hmem : last ∈ ([0x90, 0x80, 0x80, 0x80] : Bytes) := by
        rw [hbytes]
        exact List.mem_append_right _ List.mem_cons_self
      exact absurd hlast (UInt8.not_lt.mpr (hcontinued last hmem))
    exact ⟨hfits, (number_exact [0x03, 0x90, 0x80, 0x80, 0x80] 1).2.2.1 hfits hopen⟩

end Reader

end BinaryXml
