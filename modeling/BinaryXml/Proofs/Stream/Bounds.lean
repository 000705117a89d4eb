import BinaryXml.Proofs.Stream.Reads

/-! # Reads by an index

The readers pass bytes that they hold. Here the bytes stay where they are, and an index goes
through them.

* `Indexed.run`: the same reads with an index, which fault where a slice is out of range or where a
  machine word does not hold an index.
* `Indexed.run_of_does`: they do not fault, and do what the readers do.
* `Reader.inside_of_reads`: the cursor stays within the bytes and never goes back, and what is read
  are the bytes that it passes.
-/

namespace BinaryXml

set_option autoImplicit false

/-! ## Indexes -/

namespace Indexed

/-- The number from which on a machine word does not hold it. -/
def wordLimit : Nat := 2 ^ 64

/-- An answer, and the index behind what was read. -/
abbrev Outcome (α : Type) := Except Error α × Nat

/-- A sum that a machine word holds. -/
def sum? (first second : Nat) : Option Nat :=
  if first + second < wordLimit then some (first + second) else none

/-- The bytes between two indexes in range. -/
def slice? (data : Bytes) (start stop : Nat) : Option Bytes :=
  if start ≤ stop ∧ stop ≤ data.length then some ((data.take stop).drop start) else none

section Sums
variable {data : Bytes} {start stop : Nat}

theorem sum?_of_lt (h : start + stop < wordLimit) : sum? start stop = some (start + stop) :=
  if_pos h

theorem slice?_of_le (hstart : start ≤ stop) (hstop : stop ≤ data.length) :
    slice? data start stop = some ((data.take stop).drop start) :=
  if_pos ⟨hstart, hstop⟩

theorem eq_of_sum?_eq_some {sum : Nat} (h : sum? start stop = some sum) : sum = start + stop := by
  unfold sum? at h
  split at h
  · exact (Option.some.inj h).symm
  · cases h

end Sums

/-! ## Reads -/

def byte (data : Bytes) (place : Nat) : Option (Outcome UInt8) :=
  match data[place]? with
  | none => some (.error (.truncated place .byte), place)
  | some b => do
    let next ← sum? place 1
    some (.ok b, next)

/-- Reads on inside a number that begins at `start`. -/
def numberFrom (data : Bytes) (start : Nat) (value : UInt32) (place : Nat) :
    Option (Outcome UInt32) :=
  match _hbyte : data[place]? with
  | none => some (.error (.truncated start .number), start)
  | some b =>
    if (0xFFFFFFFF : UInt32) >>> 7 < value then
      some (.error (.decoding (.numberOverflow start)), place)
    else
      match _hnext : sum? place 1 with
      | none => none
      | some next =>
        let value := value <<< 7 ||| (b &&& 0x7F).toUInt32
        if b &&& 0x80 = 0 then some (.ok value, next)
        else numberFrom data start value next
termination_by data.length - place
decreasing_by
  have hplace := (List.getElem?_eq_some_iff.mp _hbyte).1
  have hsum := eq_of_sum?_eq_some _hnext
  omega

def number (data : Bytes) (place : Nat) : Option (Outcome UInt32) :=
  numberFrom data place 0 place

def string (data : Bytes) (place : Nat) : Option (Outcome Bytes) := do
  let rest ← slice? data place data.length
  match rest.findIdx? (· == 0) with
  | none => some (.error (.unterminated place), place)
  | some stop =>
    let count ← sum? stop 1
    let next ← sum? place count
    let text ← slice? rest 0 stop
    some (.ok text, next)

/-- Reads a given number of bytes. A sum that a machine word does not hold is a failure here, and no
fault. -/
def bytes (data : Bytes) (count place : Nat) : Option (Outcome Bytes) :=
  match (sum? place count).filter (· ≤ data.length) with
  | none => some (.error (.truncated place .bytes), place)
  | some stop => do
    let text ← slice? data place stop
    some (.ok text, stop)

def counted (data : Bytes) (place : Nat) : Option (Outcome Bytes) := do
  match ← number data place with
  | (.error error, next) => some (.error error, next)
  | (.ok size, next) => bytes data size.toNat next

/-- An outcome with what is given as the value of a read. -/
def Outcome.give {α : Type} (value : α → Read.Value) (outcome : Outcome α) : Outcome Read.Value :=
  (outcome.1.map value, outcome.2)

def run (data : Bytes) (place : Nat) : Read → Option (Outcome Read.Value)
  | .byte => (byte data place).map (.give .byte)
  | .peek => some (.ok (.peeked data[place]?), place)
  | .number => (number data place).map (.give .number)
  | .string => (string data place).map (.give .bytes)
  | .bytes count => (bytes data count.toNat place).map (.give .bytes)
  | .counted => (counted data place).map (.give .bytes)

/-- The index behind reads from the start, if none of them faults. -/
def after (data : Bytes) (reads : List Read) : Option Nat :=
  reads.foldlM (fun place read => (run data place read).map Prod.snd) 0

/-! ## Numbers -/

section Numbers
variable {data front rest ahead : Bytes} {start size place count : Nat}

theorem getElem?_of_drop {b : UInt8} (h : data.drop place = b :: rest) :
    data[place]? = some b ∧ data.drop (place + 1) = rest ∧ place < data.length := by
  refine ⟨?_, ?_, ?_⟩
  · rw [← List.head?_drop, h]
    rfl
  · rw [← List.drop_drop, h]
    rfl
  · refine Nat.lt_of_not_le fun hle => ?_
    rw [List.drop_eq_nil_iff.mpr hle] at h
    cases h

theorem numberFrom_of_none (h : data[place]? = none) (value : UInt32) :
    numberFrom data start value place = some (.error (.truncated start .number), start) := by
  rw [numberFrom]
  split
  · rfl
  · rename_i hsome
    rw [h] at hsome
    cases hsome

theorem numberFrom_of_some {b : UInt8} {next : Nat} (h : data[place]? = some b)
    (hnext : sum? place 1 = some next) (value : UInt32) :
    numberFrom data start value place =
      if (0xFFFFFFFF : UInt32) >>> 7 < value then
        some (.error (.decoding (.numberOverflow start)), place)
      else if b &&& 0x80 = 0 then some (.ok (value <<< 7 ||| (b &&& 0x7F).toUInt32), next)
      else numberFrom data start (value <<< 7 ||| (b &&& 0x7F).toUInt32) next := by
  rw [numberFrom]
  split
  · rename_i hnone
    rw [h] at hnone
    cases hnone
  · rename_i hsome
    rw [h] at hsome
    cases hsome
    split
    · rfl
    · split
      · rename_i hfault
        rw [hnext] at hfault
        cases hfault
      · rename_i hsum
        rw [hnext] at hsum
        cases hsum
        rfl

/-- An index goes through a number like a scan of the bytes behind it. -/
theorem numberFrom_eq (hsize : data.length < wordLimit) (value : UInt32)
    (h : data.drop (start + size) = ahead) :
    numberFrom data start value (start + size) = match Number.scanWords value size ahead with
      | .value value size _ => some (.ok value, start + size)
      | .overflow size _ => some (.error (.decoding (.numberOverflow start)), start + size)
      | .truncated => some (.error (.truncated start .number), start) := by
  -- On the bytes ahead, since the index only stands for how many of them have been passed.
  induction ahead generalizing value size with
  | nil =>
    exact numberFrom_of_none (List.getElem?_eq_none_iff.mpr (List.drop_eq_nil_iff.mp h)) value
  | cons b rest ih =>
    obtain ⟨hb, hrest, hlt⟩ := getElem?_of_drop h
    have hsum : sum? (start + size) 1 = some (start + (size + 1)) :=
      sum?_of_lt (Nat.lt_of_le_of_lt hlt hsize)
    rw [numberFrom_of_some hb hsum, Number.scanWords]
    dsimp only
    split
    · rfl
    · split
      · rfl
      · exact ih _ hrest

theorem number_eq (hsize : data.length < wordLimit) (h : data.drop place = ahead) :
    number data place = match Number.scan ahead with
      | .value value size _ => some (.ok value, place + size)
      | .overflow size _ => some (.error (.decoding (.numberOverflow place)), place + size)
      | .truncated => some (.error (.truncated place .number), place) := by
  have hstart : data.drop (place + 0) = ahead := h
  have hnumber := numberFrom_eq hsize 0 hstart
  rwa [Number.scanWords_eq_scanFrom] at hnumber

theorem number_of_spells (hsize : data.length < wordLimit) {value : UInt32}
    (h : data.drop place = front ++ rest) (hspells : Number.Spells value front) :
    number data place = some (.ok value, place + front.length) := by
  rw [number_eq hsize h, Number.scan_append hspells]

theorem number_of_failed (hsize : data.length < wordLimit) {error : Error}
    (h : data.drop place = ahead) (hfailed : Read.Does place .number ahead (.error error) count) :
    number data place = some (.error error, place + count) := by
  rw [number_eq hsize h]
  cases hfailed with
  | numberEnds continued fits =>
    rw [Number.scan, Number.scanFrom_of_continued 0 continued (not_exists.mp fits)]
    rfl
  | numberOverflows overflows soonest => rw [Number.scan_of_overflowsAt overflows soonest]

end Numbers

/-! ## All reads -/

section Runs
variable {data ahead rest text : Bytes} {place count : Nat}

theorem drop_behind (h : data.drop place = text ++ rest) :
    data.drop (place + text.length) = rest := by
  rw [← List.drop_drop, h, List.drop_left]

theorem length_of_drop (hplace : place ≤ data.length) (h : data.drop place = text ++ rest) :
    data.length = place + text.length + rest.length := by
  have hlength := congrArg List.length h
  rw [List.length_drop, List.length_append] at hlength
  omega

theorem slice?_ahead (hplace : place ≤ data.length) :
    slice? data place data.length = some (data.drop place) := by
  rw [slice?_of_le hplace (Nat.le_refl _), List.take_length]

theorem slice?_front (hplace : place ≤ data.length) (h : data.drop place = text ++ rest) :
    slice? data place (place + text.length) = some text := by
  have hlength := length_of_drop hplace h
  rw [slice?_of_le (Nat.le_add_right _ _) (by omega), List.drop_take, h, Nat.add_sub_cancel_left,
    List.take_left]

theorem string_of_terminated (hsize : data.length < wordLimit) (hplace : place ≤ data.length)
    (h : data.drop place = text ++ 0 :: rest) (hfree : 0 ∉ text) :
    string data place = some (.ok text, place + (text.length + 1)) := by
  have hlength := length_of_drop hplace h
  rw [List.length_cons] at hlength
  have hnone : text.findIdx? (· == 0) = none := by
    rw [List.findIdx?_eq_none_iff]
    intro b hb
    exact beq_eq_false_iff_ne.mpr (ne_of_mem_of_not_mem hb hfree)
  have hfind : (text ++ 0 :: rest).findIdx? (· == 0) = some text.length := by
    rw [List.findIdx?_append, hnone, Option.none_or, List.findIdx?_cons]
    exact congrArg some (Nat.zero_add _)
  have htext : slice? (text ++ 0 :: rest) 0 text.length = some text := by
    rw [slice?_of_le (Nat.zero_le _) (by simp), List.take_left, List.drop_zero]
  simp only [string, slice?_ahead hplace, h, hfind, htext, Option.bind_eq_bind, Option.bind_some,
    sum?_of_lt (show text.length + 1 < wordLimit by omega),
    sum?_of_lt (show place + (text.length + 1) < wordLimit by omega)]

theorem string_of_endless (hplace : place ≤ data.length) (h : 0 ∉ data.drop place) :
    string data place = some (.error (.unterminated place), place) := by
  have hfind : (data.drop place).findIdx? (· == 0) = none := by
    rw [List.findIdx?_eq_none_iff]
    intro b hb
    exact beq_eq_false_iff_ne.mpr (ne_of_mem_of_not_mem hb h)
  simp only [string, slice?_ahead hplace, hfind, Option.bind_eq_bind, Option.bind_some]

theorem bytes_of_front (hsize : data.length < wordLimit) (hplace : place ≤ data.length)
    (h : data.drop place = text ++ rest) :
    bytes data text.length place = some (.ok text, place + text.length) := by
  have hlength := length_of_drop hplace h
  have hstop : (sum? place text.length).filter (· ≤ data.length) = some (place + text.length) := by
    rw [sum?_of_lt (by omega), Option.filter_some, if_pos]
    exact decide_eq_true (by omega)
  simp only [bytes, hstop, slice?_front hplace h, Option.bind_eq_bind, Option.bind_some]

theorem bytes_of_short (h : (data.drop place).length < count) :
    bytes data count place = some (.error (.truncated place .bytes), place) := by
  rw [List.length_drop] at h
  -- Either a machine word does not hold the sum, or it is past the end.
  have hstop : (sum? place count).filter (· ≤ data.length) = none := by
    rw [Option.filter_eq_none_iff]
    intro stop hsum
    have hstop := eq_of_sum?_eq_some hsum
    exact fun hle => absurd (of_decide_eq_true hle) (by omega)
  simp only [bytes, hstop]

/-- An index does with the bytes at its place what a read does, without a fault. -/
theorem run_of_does (hsize : data.length < wordLimit) (hplace : place ≤ data.length) {read : Read}
    {answer : Except Error Read.Value} (h : read.Does place (data.drop place) answer count) :
    run data place read = some (answer, place + count) := by
  generalize hahead : data.drop place = ahead at h
  cases h with
  | byte =>
    obtain ⟨hbyte, -, hlt⟩ := getElem?_of_drop hahead
    have hnext := sum?_of_lt (show place + 1 < wordLimit by omega)
    simp only [run, byte, hbyte, hnext, Option.bind_eq_bind, Option.bind_some]
    rfl
  | noByte =>
    have hnone := List.getElem?_eq_none_iff.mpr (List.drop_eq_nil_iff.mp hahead)
    simp only [run, byte, hnone]
    rfl
  | peek =>
    rw [run, ← hahead, List.head?_drop]
    rfl
  | number spells =>
    rw [run, number_of_spells hsize hahead spells]
    rfl
  | numberEnds continued fits =>
    rw [run, number_of_failed hsize hahead (.numberEnds continued fits)]
    rfl
  | numberOverflows overflows soonest =>
    rw [run, number_of_failed hsize hahead (.numberOverflows overflows soonest)]
    rfl
  | string frame =>
    obtain ⟨rfl, hfree⟩ := frame
    rw [List.append_assoc] at hahead
    rw [run, string_of_terminated hsize hplace hahead hfree, List.length_append]
    rfl
  | stringEnds endless =>
    rw [run, string_of_endless hplace (hahead ▸ endless)]
    rfl
  | bytes length =>
    rw [run, ← length, bytes_of_front hsize hplace hahead]
    rfl
  | bytesEnd short =>
    rw [run, bytes_of_short (hahead ▸ short)]
    rfl
  | counted frame =>
    obtain ⟨size, front, hspells, hlength, rfl⟩ := frame
    rw [List.append_assoc] at hahead
    have hlength' := length_of_drop hplace hahead
    have hbytes := bytes_of_front hsize (show place + front.length ≤ data.length by omega)
      (drop_behind hahead)
    rw [run, counted, number_of_spells hsize hahead hspells, List.length_append, ← Nat.add_assoc]
    simp only [Option.bind_eq_bind, Option.bind_some, hlength, hbytes]
    rfl
  | notCounted failed =>
    rw [run, counted, number_of_failed hsize hahead failed]
    rfl
  | countedEnd spells short =>
    rw [← drop_behind hahead] at short
    rw [run, counted, number_of_spells hsize hahead spells]
    simp only [Option.bind_eq_bind, Option.bind_some, bytes_of_short short]
    rfl

theorem after_concat (data : Bytes) (reads : List Read) (read : Read) :
    after data (reads ++ [read]) =
      (after data reads).bind fun place => (run data place read).map Prod.snd := by
  simp only [after, List.foldlM_append, List.foldlM_cons, List.foldlM_nil, bind_pure,
    Option.bind_eq_bind]

/-- Reads by an index do not fault, and the index is where the cursor is. -/
theorem after_eq (hsize : data.length < wordLimit) (reads : List Read) :
    after data reads = some (Reader.after data reads).offset := by
  induction reads using List.reverseRecOn with
  | nil => rfl
  | append_singleton reads read ih =>
    obtain ⟨answer, count, hdoes, htried⟩ := Reader.exists_does_after data reads read
    have hrun := run_of_does hsize (Reader.offset_after_le data reads) hdoes
    rw [after_concat, ih, Option.bind_some, hrun, Reader.after_concat, htried]
    rfl

end Runs

end Indexed

/-! ## Reads within their bytes -/

namespace Read

/-- How the bytes that a read gives stand among the bytes that it passes. -/
def Frames : Read → Bytes → Bytes → Prop
  | .string, value, passed => Grammar.Terminated value passed
  | .bytes count, value, passed => passed = value ∧ value.length = count.toNat
  | .counted, value, passed => Grammar.Counted value passed
  | _, _, _ => False

theorem Does.frames {place count : Nat} {read : Read} {ahead value : Bytes}
    (h : read.Does place ahead (.ok (.bytes value)) count) :
    read.Frames value (ahead.take count) := by
  cases h with
  | string frame =>
    rw [List.take_left]
    exact frame
  | bytes length =>
    rw [List.take_left]
    exact ⟨rfl, length⟩
  | counted frame =>
    rw [List.take_left]
    exact frame

end Read

namespace Reader

/-- Behind any reads, failed ones among them, the next one goes forward and not past the end of the
bytes. With an index in the place of the cursor no slice is out of range, and machine words hold all
indexes if they hold the length of the bytes. What is read are the bytes that are passed, without
what frames them. -/
theorem inside_of_reads (data : Bytes) (reads : List Read) (read : Read) :
    let before := after data reads
    let behind := after data (reads ++ [read])
    before.offset ≤ behind.offset ∧ behind.offset ≤ data.length ∧
      behind = Cursor.within data behind.offset ∧
      (data.length < Indexed.wordLimit →
        ((Indexed.after data reads).bind fun place => Indexed.run data place read) =
          some ((tried read.reader before).1, behind.offset)) ∧
      ∀ value, (tried read.reader before).1 = .ok (.bytes value) →
        read.Frames value ((data.take behind.offset).drop before.offset) := by
  intro before behind
  obtain ⟨answer, count, hdoes, htried⟩ := exists_does_after data reads read
  have hbehind : behind.offset = before.offset + count := by
    change (after data (reads ++ [read])).offset = _
    rw [after_concat, htried]
    rfl
  refine ⟨?_, offset_after_le data _, after_eq_within data _, fun hsize => ?_,
    fun value hvalue => ?_⟩
  · rw [hbehind]
    exact Nat.le_add_right _ _
  · have hrun := Indexed.run_of_does hsize (offset_after_le data reads) hdoes
    rw [Indexed.after_eq hsize, Option.bind_some, hrun, hbehind, htried]
  · rw [htried] at hvalue
    cases hvalue
    rw [hbehind, List.drop_take, Nat.add_sub_cancel_left]
    exact hdoes.frames

/-- A string, more bytes than a machine word can reach, counted bytes and a number of more than 32
bits, which leaves the cursor in front of its last byte. -/
theorem inside_of_reads_mixedReads :
    let data : Bytes := [0x61, 0x00, 0x02, 0xAA, 0xBB, 0x90, 0x80, 0x80, 0x80, 0x00]
    let reads : List Read := [.string, .bytes 0xFFFFFFFFFFFFFFFF, .counted, .number]
    data.length < Indexed.wordLimit ∧ (after data reads).offset = 9 ∧
      after data (reads ++ [.string]) = ⟨10, []⟩ ∧
      ((Indexed.after data reads).bind fun place => Indexed.run data place .string) =
        some (.ok (.bytes []), 10) ∧
      Read.string.Frames [] [0x00] := by
  intro data reads
  have hsize : data.length < Indexed.wordLimit := by decide
  obtain ⟨-, -, -, hrun, hframes⟩ := inside_of_reads data reads .string
  exact ⟨hsize, rfl, rfl, hrun hsize, hframes [] rfl⟩

end Reader

end BinaryXml
