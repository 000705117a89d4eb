import Mathlib.Data.List.Induction
import Mathlib.Data.List.TakeWhile
import BinaryXml.Proofs.Stream.Scanning

/-! # Reads one after the other

* `Read` is a read, and `Reader.after` is the cursor behind reads of which some may have failed.
* `Read.Does`: what a read does with the bytes at its place, with a case for each way in which it
  succeeds and for each way in which it fails. `Read.exists_does` says that it always does one.
* `Reader.exists_place_after`: reads stay within their bytes.
* `Reader.stays_iff_of_failed`: a read that fails leaves the cursor where it was, unless it has read
  a number, or the front of one, that it cannot use.
-/

namespace BinaryXml

set_option autoImplicit false

/-! ## Reads -/

/-- A read. The number of bytes that are asked for is a machine word. -/
inductive Read where
  | byte
  | peek
  | number
  | string
  | bytes (count : UInt64)
  | counted
deriving Repr, DecidableEq

namespace Read

/-- What a read gives. -/
inductive Value where
  | byte (value : UInt8)
  | peeked (value : Option UInt8)
  | number (value : UInt32)
  | bytes (data : Bytes)
deriving Repr, DecidableEq

def reader : Read → Reader Value
  | .byte => Value.byte <$> Reader.byte
  | .peek => do pure (.peeked (← get).peek?)
  | .number => Value.number <$> Reader.number
  | .string => Value.bytes <$> Reader.string
  | .bytes count => Value.bytes <$> Reader.bytes count.toNat
  | .counted => Value.bytes <$> Reader.counted

/-- What a read does with the bytes at its place: the answer, and how far behind the place the
cursor is left. -/
inductive Does (place : Nat) : Read → Bytes → Except Error Value → Nat → Prop
  | byte {b : UInt8} {rest : Bytes} : Does place .byte (b :: rest) (.ok (.byte b)) 1
  | noByte : Does place .byte [] (.error (.truncated place .byte)) 0
  | peek {bytes : Bytes} : Does place .peek bytes (.ok (.peeked bytes.head?)) 0
  | number {value : UInt32} {front rest : Bytes} (spells : Number.Spells value front) :
      Does place .number (front ++ rest) (.ok (.number value)) front.length
  | numberEnds {bytes : Bytes} (continued : Number.Continued bytes)
      (fits : ¬ Number.Overflows bytes) :
      Does place .number bytes (.error (.truncated place .number)) 0
  | numberOverflows {bytes : Bytes} {count : Nat} (overflows : Number.OverflowsAt 0 bytes count)
      (soonest : ∀ fewer < count, ¬ Number.OverflowsAt 0 bytes fewer) :
      Does place .number bytes (.error (.decoding (.numberOverflow place))) count
  | string {text bytes rest : Bytes} (frame : Grammar.Terminated text bytes) :
      Does place .string (bytes ++ rest) (.ok (.bytes text)) bytes.length
  | stringEnds {bytes : Bytes} (endless : 0 ∉ bytes) :
      Does place .string bytes (.error (.unterminated place)) 0
  | bytes {count : UInt64} {data rest : Bytes} (length : data.length = count.toNat) :
      Does place (.bytes count) (data ++ rest) (.ok (.bytes data)) data.length
  | bytesEnd {count : UInt64} {bytes : Bytes} (short : bytes.length < count.toNat) :
      Does place (.bytes count) bytes (.error (.truncated place .bytes)) 0
  | counted {data bytes rest : Bytes} (frame : Grammar.Counted data bytes) :
      Does place .counted (bytes ++ rest) (.ok (.bytes data)) bytes.length
  | notCounted {bytes : Bytes} {error : Error} {count : Nat}
      (failed : Does place .number bytes (.error error) count) :
      Does place .counted bytes (.error error) count
  | countedEnd {size : UInt32} {front rest : Bytes} (spells : Number.Spells size front)
      (short : rest.length < size.toNat) :
      Does place .counted (front ++ rest) (.error (.truncated (place + front.length) .bytes))
        front.length

/-- The read fails behind its place: on a number that has more than 32 bits, or behind the number of
bytes that are not all there. -/
def Strays : Read → Bytes → Prop
  | .number, ahead => Number.Overflows ahead
  | .counted, ahead => Number.Overflows ahead ∨ ∃ size front rest,
      ahead = front ++ rest ∧ Number.Spells size front ∧ rest.length < size.toNat
  | _, _ => False

end Read

/-! ## What a read does -/

namespace Number

variable {bytes front rest : Bytes} {value : UInt32} {count : Nat}

theorem pos_of_overflowsAt (h : OverflowsAt 0 bytes count) : 0 < count := by
  refine Nat.pos_of_ne_zero ?_
  rintro rfl
  have hlarge := h.2.2
  rw [List.take_zero, groupsFrom_nil] at hlarge
  exact absurd hlarge (by decide)

/-- A scan overflows as soon as it can. -/
theorem not_overflowsAt_of_scanFrom {value size first : Nat}
    (h : scanFrom value size bytes = .overflow (size + first) rest) :
    ∀ fewer < first, ¬ OverflowsAt value bytes fewer := by
  induction bytes generalizing value size first with
  | nil => cases h
  | cons b bytes ih =>
    intro fewer hfewer
    rw [scanFrom] at h
    split at h
    · have hfirst : size = size + first := (Scan.overflow.inj h).1
      omega
    · rename_i hsmall
      -- There is room in front of this byte, so only a later count can overflow.
      dsimp only at h
      split at h
      · cases h
      · cases fewer with
        | zero => exact mt overflowsAt_zero.mp hsmall
        | succ fewer =>
          obtain ⟨first, rfl⟩ := Nat.exists_eq_add_of_lt (Nat.zero_lt_of_lt hfewer)
          rw [show size + (0 + first + 1) = size + 1 + first by omega] at h
          exact fun hover => ih h fewer (by omega) (overflowsAt_succ.mp hover).2

theorem scan_of_overflowsAt (h : OverflowsAt 0 bytes count)
    (soonest : ∀ fewer < count, ¬ OverflowsAt 0 bytes fewer) :
    scan bytes = .overflow count (bytes.drop count) := by
  obtain ⟨first, hfirst, hscan⟩ := scanFrom_of_overflowsAt 0 h
  have hle : count ≤ first := Nat.le_of_not_lt fun hlt => soonest first hlt hfirst
  have hge : first ≤ count :=
    Nat.le_of_not_lt fun hlt => not_overflowsAt_of_scanFrom hscan count hlt h
  rw [scan, hscan, Nat.zero_add, Nat.le_antisymm hge hle]

/-- A number ends with a byte that does not continue it. -/
theorem not_continued_of_spells (h : Spells value front) : ¬ Continued (front ++ rest) := by
  obtain ⟨groups, last, rfl, -, hlast, -⟩ := h
  intro hcontinued
  have hmem : last ∈ groups ++ [last] ++ rest := by simp
  exact absurd hlast (UInt8.not_lt.mpr (hcontinued last hmem))

/-- Groups that fit up to the first byte without the continuation bit are a number. -/
theorem exists_spells_of_endsAt (hends : EndsAt bytes count) (hfits : ¬ Overflows bytes) :
    ∃ value front rest, bytes = front ++ rest ∧ Spells value front :=
  have hscan := scan_of_endsAt hends (not_exists.mp hfits)
  have ⟨front, hspells, hbytes, _⟩ := scan_eq_value_iff.mp hscan
  ⟨_, front, _, hbytes, hspells⟩

end Number

namespace Read

section Does
variable {place : Nat} {read : Read} {bytes : Bytes} {answer : Except Error Value} {error : Error}
  {count : Nat}

theorem Does.le_length (h : Does place read bytes answer count) : count ≤ bytes.length := by
  induction h with
  | byte => exact Nat.succ_le_succ (Nat.zero_le _)
  | noByte | peek | numberEnds | stringEnds | bytesEnd => exact Nat.zero_le _
  | number | string | bytes | counted | countedEnd =>
    rw [List.length_append]
    exact Nat.le_add_right _ _
  | numberOverflows overflows _ => exact Nat.le_of_lt overflows.1
  | notCounted _ ih => exact ih

/-- A read that fails without straying fails at its place. -/
theorem Does.strays_iff (h : Does place read bytes (.error error) count) :
    read.Strays bytes ↔ 0 < count := by
  cases h with
  | noByte | stringEnds | bytesEnd => exact iff_of_false id (Nat.lt_irrefl 0)
  | numberEnds _ fits => exact iff_of_false fits (Nat.lt_irrefl 0)
  | numberOverflows overflows _ =>
    exact iff_of_true ⟨count, overflows⟩ (Number.pos_of_overflowsAt overflows)
  | notCounted failed =>
    cases failed with
    | numberOverflows overflows _ =>
      exact iff_of_true (.inl ⟨count, overflows⟩) (Number.pos_of_overflowsAt overflows)
    | numberEnds continued fits =>
      refine iff_of_false ?_ (Nat.lt_irrefl 0)
      rintro (hover | ⟨size, front, rest, rfl, hspells, -⟩)
      · exact fits hover
      · exact Number.not_continued_of_spells hspells continued
  | countedEnd spells short =>
    exact iff_of_true (.inr ⟨_, _, _, rfl, spells, short⟩) (Number.length_pos_of_spells spells)

end Does

section Tried
variable {α : Type} {reader : Reader α} {place : Nat}

theorem tried_of_reads {form : α → Bytes → Prop} {value : α} {front : Bytes}
    (h : Reader.Reads reader form) (hform : form value front) (place : Nat) (rest : Bytes) :
    tried reader ⟨place, front ++ rest⟩ =
      (.ok value, ⟨place + front.length, (front ++ rest).drop front.length⟩) := by
  rw [List.drop_left]
  exact tried_of_ok ((h _ _ _).mpr ⟨front, hform, rfl, rfl⟩)

theorem exists_tried_number (place : Nat) (ahead : Bytes) :
    (∃ value front rest, ahead = front ++ rest ∧ Number.Spells value front ∧
      tried Reader.number ⟨place, ahead⟩ =
        (.ok value, ⟨place + front.length, ahead.drop front.length⟩)) ∨
    ∃ error count, Does place .number ahead (.error error) count ∧
      tried Reader.number ⟨place, ahead⟩ = (.error error, ⟨place + count, ahead.drop count⟩) := by
  by_cases hover : Number.Overflows ahead
  · obtain ⟨count, hcount⟩ := hover
    obtain ⟨first, hfirst, hscan⟩ := Number.scanFrom_of_overflowsAt 0 hcount
    have hsoonest := Number.not_overflowsAt_of_scanFrom hscan
    refine .inr ⟨_, first, .numberOverflows hfirst hsoonest, tried_of_error ?_⟩
    rw [Reader.number, Number.scan, hscan, Nat.zero_add]
  · rcases Number.continued_or_endsAt ahead with hcontinued | ⟨count, hends⟩
    · refine .inr ⟨_, 0, .numberEnds hcontinued hover, tried_of_error ?_⟩
      rw [Reader.number, Number.scan, Number.scanFrom_of_continued 0 hcontinued
        (not_exists.mp hover)]
      rfl
    · obtain ⟨value, front, rest, rfl, hspells⟩ := Number.exists_spells_of_endsAt hends hover
      exact .inl ⟨value, front, rest, rfl, hspells,
        tried_of_reads Reader.reads_number hspells place rest⟩

theorem tried_string_of_endless {ahead : Bytes} (h : 0 ∉ ahead) :
    tried Reader.string ⟨place, ahead⟩ = (.error (.unterminated place), ⟨place, ahead⟩) := by
  have htext : ahead.takeWhile (· != 0) = ahead := by
    rw [List.takeWhile_eq_self_iff]
    intro b hb
    exact bne_iff_ne.mpr (ne_of_mem_of_not_mem hb h)
  refine tried_of_error ?_
  rw [Reader.string]
  simp only [htext, List.drop_length]

theorem tried_bytes_of_short {ahead : Bytes} {count : Nat} (h : ahead.length < count) :
    tried (Reader.bytes count) ⟨place, ahead⟩ =
      (.error (.truncated place .bytes), ⟨place, ahead⟩) := by
  refine tried_of_error ?_
  rw [Reader.bytes, if_neg (Nat.not_le_of_lt h)]

end Tried

theorem exists_does_bytes (count : UInt64) (place : Nat) (ahead : Bytes) :
    ∃ answer length, Does place (.bytes count) ahead answer length ∧
      tried (Read.bytes count).reader ⟨place, ahead⟩ =
        (answer, ⟨place + length, ahead.drop length⟩) := by
  by_cases hlength : count.toNat ≤ ahead.length
  · have hdata : (ahead.take count.toNat).length = count.toNat := List.length_take_of_le hlength
    have htried := tried_of_reads (Reader.reads_bytes count.toNat) ⟨rfl, hdata⟩ place
      (ahead.drop count.toNat)
    have hdoes := @Does.bytes place count _ (ahead.drop count.toNat) hdata
    rw [List.take_append_drop] at htried hdoes
    exact ⟨_, _, hdoes, by rw [reader, tried_map, htried]; rfl⟩
  · have hshort := Nat.lt_of_not_le hlength
    exact ⟨_, 0, .bytesEnd hshort, by rw [reader, tried_map, tried_bytes_of_short hshort]; rfl⟩

theorem exists_does_counted (place : Nat) (ahead : Bytes) :
    ∃ answer count, Does place .counted ahead answer count ∧
      tried Read.counted.reader ⟨place, ahead⟩ = (answer, ⟨place + count, ahead.drop count⟩) := by
  rcases exists_tried_number place ahead with ⟨size, front, rest, rfl, hspells, htried⟩ |
    ⟨error, count, hdoes, htried⟩
  · by_cases hlength : size.toNat ≤ rest.length
    · have hframe : Grammar.Counted (rest.take size.toNat) (front ++ rest.take size.toNat) :=
        ⟨size, front, hspells, (List.length_take_of_le hlength).symm, rfl⟩
      have hread := tried_of_reads Reader.reads_counted hframe place (rest.drop size.toNat)
      have hdoes := @Does.counted place _ _ (rest.drop size.toNat) hframe
      rw [List.append_assoc, List.take_append_drop] at hread hdoes
      exact ⟨_, _, hdoes, by rw [reader, tried_map, hread]; rfl⟩
    · -- The number has been read when its bytes are found missing, and nothing takes it back.
      have hshort := Nat.lt_of_not_le hlength
      refine ⟨_, _, .countedEnd hspells hshort, ?_⟩
      rw [List.drop_left] at htried ⊢
      rw [reader, tried_map, Reader.counted, tried_bind, htried]
      dsimp only
      rw [tried_bytes_of_short hshort]
      rfl
  · exact ⟨_, _, .notCounted hdoes, by
      rw [reader, tried_map, Reader.counted, tried_bind, htried]; rfl⟩

theorem exists_does (read : Read) (place : Nat) (ahead : Bytes) : ∃ answer count,
    Does place read ahead answer count ∧
      tried read.reader ⟨place, ahead⟩ = (answer, ⟨place + count, ahead.drop count⟩) := by
  cases read with
  | byte =>
    cases ahead with
    | nil => exact ⟨_, 0, .noByte, rfl⟩
    | cons b rest => exact ⟨_, 1, .byte, rfl⟩
  | peek => exact ⟨_, 0, .peek, rfl⟩
  | number =>
    rcases exists_tried_number place ahead with ⟨value, front, rest, rfl, hspells, htried⟩ |
      ⟨error, count, hdoes, htried⟩
    · exact ⟨_, _, .number hspells, by rw [reader, tried_map, htried]; rfl⟩
    · exact ⟨_, _, hdoes, by rw [reader, tried_map, htried]; rfl⟩
  | string =>
    by_cases hzero : 0 ∈ ahead
    · obtain ⟨text, rest, rfl, hfree⟩ := List.eq_append_cons_of_mem hzero
      have hframe : Grammar.Terminated text (text ++ [0]) := ⟨rfl, hfree⟩
      have htried := tried_of_reads Reader.reads_string hframe place rest
      rw [List.append_cons]
      exact ⟨_, _, .string hframe, by rw [reader, tried_map, htried]; rfl⟩
    · exact ⟨_, 0, .stringEnds hzero, by
        rw [reader, tried_map, tried_string_of_endless hzero]; rfl⟩
  | bytes count => exact exists_does_bytes count place ahead
  | counted => exact exists_does_counted place ahead

end Read

/-! ## Reads behind others -/

namespace Reader

/-- The cursor behind reads from the start of some bytes. A read that fails does not end them. -/
def after (data : Bytes) (reads : List Read) : Cursor :=
  triedAll (reads.map Read.reader) (Cursor.ofBytes data)

section After
variable (data : Bytes) (reads : List Read) (read : Read)

theorem after_concat :
    after data (reads ++ [read]) = (tried read.reader (after data reads)).2 := by
  rw [after, List.map_append, List.map_singleton, triedAll_concat]
  rfl

/-- Reads stay within their bytes. -/
theorem exists_place_after :
    ∃ place ≤ data.length, after data reads = Cursor.within data place := by
  induction reads using List.reverseRecOn with
  | nil => exact ⟨0, Nat.zero_le _, rfl⟩
  | append_singleton reads read ih =>
    obtain ⟨place, hplace, hafter⟩ := ih
    obtain ⟨answer, count, hdoes, htried⟩ := read.exists_does place (data.drop place)
    have hcount := hdoes.le_length
    rw [List.length_drop] at hcount
    refine ⟨place + count, by omega, ?_⟩
    rw [after_concat, hafter, Cursor.within, htried, within_add]

theorem after_eq_within : after data reads = Cursor.within data (after data reads).offset := by
  obtain ⟨place, -, hafter⟩ := exists_place_after data reads
  rw [hafter]
  rfl

theorem offset_after_le : (after data reads).offset ≤ data.length := by
  obtain ⟨place, hplace, hafter⟩ := exists_place_after data reads
  rw [hafter]
  exact hplace

theorem exists_does_after : ∃ answer count,
    read.Does (after data reads).offset (data.drop (after data reads).offset) answer count ∧
      tried read.reader (after data reads) =
        (answer, Cursor.within data ((after data reads).offset + count)) := by
  obtain ⟨answer, count, hdoes, htried⟩ :=
    read.exists_does (after data reads).offset (data.drop (after data reads).offset)
  refine ⟨answer, count, hdoes, ?_⟩
  rw [within_add, ← htried]
  exact congrArg _ (after_eq_within data reads)

end After

/-- A read that fails behind any reads, failed ones among them, leaves the cursor exactly where it
was, unless it strays. Then the cursor is further on: in front of the first byte for which a number
has no room, or behind the number of bytes that are not all there. -/
theorem stays_iff_of_failed {data : Bytes} {reads : List Read} {read : Read} {error : Error}
    {cursor' : Cursor} (h : tried read.reader (after data reads) = (.error error, cursor')) :
    let place := (after data reads).offset
    (cursor' = after data reads ↔ ¬ read.Strays (data.drop place)) ∧
      ∃ count, read.Does place (data.drop place) (.error error) count ∧
        cursor' = Cursor.within data (place + count) ∧
          (read.Strays (data.drop place) ↔ 0 < count) := by
  intro place
  obtain ⟨answer, count, hdoes, htried⟩ := exists_does_after data reads read
  rw [h] at htried
  obtain ⟨rfl, rfl⟩ := Prod.mk.inj htried
  have hstrays := hdoes.strays_iff
  refine ⟨?_, count, hdoes, rfl, hstrays⟩
  rw [hstrays, Nat.pos_iff_ne_zero, not_not]
  constructor
  · intro hsame
    have hoffset : place + count = place := congrArg Cursor.offset hsame
    omega
  · rintro rfl
    exact (after_eq_within data reads).symm

/-- Behind a byte and a request for more bytes than there are, a string that is not ended leaves the
cursor where it is, and a number of bytes that are not all there does not. -/
theorem stays_iff_of_failed_hostileReads :
    let data : Bytes := [0x07, 0x03, 0xAA, 0xBB]
    let reads : List Read := [.byte, .bytes 0xFFFFFFFFFFFFFFFF]
    (tried Read.string.reader (after data reads) = (.error (.unterminated 1), after data reads) ∧
      ¬ Read.string.Strays [0x03, 0xAA, 0xBB]) ∧
    (tried Read.counted.reader (after data reads) =
        (.error (.truncated 2 .bytes), ⟨2, [0xAA, 0xBB]⟩) ∧
      Read.counted.Strays [0x03, 0xAA, 0xBB]) := by
  intro data reads
  have hstring : tried Read.string.reader (after data reads) =
      (.error (.unterminated 1), after data reads) := rfl
  have hcounted : tried Read.counted.reader (after data reads) =
      (.error (.truncated 2 .bytes), ⟨2, [0xAA, 0xBB]⟩) := rfl
  have hmoved : (⟨2, [0xAA, 0xBB]⟩ : Cursor) ≠ after data reads := by decide
  refine ⟨⟨hstring, (stays_iff_of_failed hstring).1.mp rfl⟩, hcounted, ?_⟩
  exact not_not.mp (mt (stays_iff_of_failed hcounted).1.mpr hmoved)

/-- A number of more than 32 bits is refused in front of its last byte, and the cursor is left
there. -/
theorem not_stays_wideNumber :
    ¬ ∀ (data : Bytes) (reads : List Read) (read : Read) (error : Error) (cursor' : Cursor),
      tried read.reader (after data reads) = (.error error, cursor') →
        cursor'.offset = (after data reads).offset := by
  intro h
  have hoffset := h [0x90, 0x80, 0x80, 0x80, 0x00] [] .number (.decoding (.numberOverflow 0))
    ⟨4, [0x00]⟩ rfl
  exact absurd hoffset (by decide)

end Reader

end BinaryXml
