import BinaryXml.Proofs.Stream.Tables
import BinaryXml.Stream.Buffer

/-! # Items that are written one after the other

* `Item` is a value together with the way in which it is written, and `Found` is what is read.
* `Item.exists_bytes`: an item is written as some bytes, and where these stand it is found.
* `Reader.each_of_each`: so it is with items one after the other, whatever was written before.
* `Reader.each_of_writable`: what is written with one buffer is found with one cursor, item by item
  and up to the end. Numbers have as few bytes as possible.
-/

namespace BinaryXml

set_option autoImplicit false

/-! ## Items -/

/-- The ways in which an item shows where it ends. -/
inductive ItemKind where
  | byte
  | number
  | string
  | counted
deriving Repr, DecidableEq

/-- A value, with the way in which it is written. -/
inductive Item where
  | byte (value : UInt8)
  | number (value : UInt32)
  | string (text : String)
  | counted (data : Bytes)
deriving Repr, DecidableEq

/-- What is found in the place of an item. A string is found as its bytes. -/
inductive Found where
  | byte (value : UInt8)
  | number (value : UInt32)
  | bytes (data : Bytes)
deriving Repr, DecidableEq

namespace Item

def kind : Item → ItemKind
  | .byte _ => .byte
  | .number _ => .number
  | .string _ => .string
  | .counted _ => .counted

def found : Item → Found
  | .byte value => .byte value
  | .number value => .number value
  | .string text => .bytes (Utf8.encode text)
  | .counted data => .bytes data

/-- A string has no character that would end it early, and 32 bits hold the number of counted
bytes. -/
def Writable : Item → Prop
  | .byte _ | .number _ => True
  | .string text => '\x00' ∉ text.toList
  | .counted data => data.length < Frame.countLimit

end Item

def Writer.item : Item → Writer
  | .byte value => byte value
  | .number value => number value
  | .string text => string text
  | .counted data => counted data

/-- Writes items one after the other, and tells how many bytes there are behind each. -/
def Writer.each : List Item → EStateM Error Buffer (List Nat)
  | [] => pure []
  | first :: rest => do
    item first
    let place := (← get).bytes.length
    let others ← each rest
    pure (place :: others)

def Reader.item : ItemKind → Reader Found
  | .byte => do pure (.byte (← byte))
  | .number => do pure (.number (← number))
  | .string => do pure (.bytes (← string))
  | .counted => do pure (.bytes (← counted))

/-- Reads items one after the other, and tells the offset behind each. -/
def Reader.each : List ItemKind → Reader (List (Found × Nat))
  | [] => pure []
  | first :: rest => do
    let value ← item first
    let place := (← get).offset
    let others ← each rest
    pure ((value, place) :: others)

/-! ## Writing and reading -/

theorem Item.exists_bytes {item : Item} (writable : item.Writable) : ∃ bytes,
    (∀ buffer, Writer.item item buffer = .ok () ⟨buffer.bytes ++ bytes⟩) ∧
      ∀ cursor cursor', Moves cursor cursor' bytes →
        Reader.item item.kind cursor = .ok item.found cursor' := by
  cases item with
  | byte value =>
    refine ⟨[value], fun _ => rfl, fun cursor cursor' hm => ?_⟩
    have hread := (Reader.reads_byte cursor value cursor').mpr ⟨_, rfl, hm⟩
    exact bind_eq_ok_iff.mpr ⟨value, cursor', hread, rfl⟩
  | number value =>
    refine ⟨Number.encode value, fun _ => rfl, fun cursor cursor' hm => ?_⟩
    have hread := (Reader.reads_number cursor value cursor').mpr ⟨_, Number.spells_encode value, hm⟩
    exact bind_eq_ok_iff.mpr ⟨value, cursor', hread, rfl⟩
  | string text =>
    refine ⟨Frame.terminated text, fun buffer => ?_, fun cursor cursor' hm => ?_⟩
    · rw [Writer.item, Writer.string, Frame.terminated?_eq_ok_iff.mpr ⟨writable, rfl⟩]
      rfl
    · have hread := (Reader.reads_string cursor _ cursor').mpr
        ⟨_, Grammar.terminated_encode writable, hm⟩
      exact bind_eq_ok_iff.mpr ⟨_, cursor', hread, rfl⟩
  | counted data =>
    refine ⟨Frame.counted data, fun buffer => ?_, fun cursor cursor' hm => ?_⟩
    · rw [Writer.item, Writer.counted, Frame.counted?_eq_ok_iff.mpr ⟨writable, rfl⟩]
      rfl
    · have hread := (Reader.reads_counted cursor data cursor').mpr
        ⟨_, Grammar.counted_of_lt writable, hm⟩
      exact bind_eq_ok_iff.mpr ⟨data, cursor', hread, rfl⟩

/-- The cursor is where the buffer ended, and passes what was written since. -/
theorem Reader.each_of_each {items : List Item} (writable : ∀ item ∈ items, item.Writable)
    (buffer : Buffer) : ∃ places bytes,
      Writer.each items buffer = .ok places ⟨buffer.bytes ++ bytes⟩ ∧
        ∀ cursor cursor', cursor.offset = buffer.bytes.length → Moves cursor cursor' bytes →
          Reader.each (items.map Item.kind) cursor =
            .ok ((items.map Item.found).zip places) cursor' := by
  -- The statement is over any buffer in front, since the places count from its start.
  induction items generalizing buffer with
  | nil =>
    refine ⟨[], [], ?_, fun cursor cursor' _ hm => ?_⟩
    · rw [List.append_nil]
      rfl
    · rw [hm.eq_of_nil]
      rfl
  | cons first rest ih =>
    obtain ⟨front, hwrite, hread⟩ := Item.exists_bytes (writable first List.mem_cons_self)
    obtain ⟨places, back, hwrites, hreads⟩ :=
      ih (fun item hmem => writable item (List.mem_cons_of_mem _ hmem)) ⟨buffer.bytes ++ front⟩
    refine ⟨(buffer.bytes ++ front).length :: places, front ++ back, ?_,
      fun cursor cursor' hoffset hm => ?_⟩
    · rw [← List.append_assoc]
      exact bind_eq_ok_iff.mpr ⟨(), _, hwrite buffer,
        bind_eq_ok_iff.mpr ⟨_, _, rfl, bind_eq_ok_iff.mpr ⟨places, _, hwrites, rfl⟩⟩⟩
    · obtain ⟨middle, hfront, hback⟩ := hm.split
      have hplace : middle.offset = (buffer.bytes ++ front).length := by
        rw [hfront.offset, hoffset, List.length_append]
      rw [← hplace]
      exact bind_eq_ok_iff.mpr ⟨first.found, middle, hread cursor middle hfront,
        bind_eq_ok_iff.mpr ⟨middle, middle, rfl,
          bind_eq_ok_iff.mpr ⟨_, cursor', hreads middle cursor' hplace hback, rfl⟩⟩⟩

/-- Items that are written with one buffer are found with one cursor: the same values, the cursor
behind each item where the buffer ended behind it, and at last nothing left. A number is spelt in
one to five groups, and in no fewer. -/
theorem Reader.each_of_writable {items : List Item} (writable : ∀ item ∈ items, item.Writable) :
    (∃ places buffer, Writer.each items {} = .ok places buffer ∧
      Reader.each (items.map Item.kind) (Cursor.ofBytes buffer.bytes) =
        .ok ((items.map Item.found).zip places) ⟨buffer.bytes.length, []⟩) ∧
    ∀ value : UInt32, ∃ bytes,
      (∀ buffer, Writer.number value buffer = .ok () ⟨buffer.bytes ++ bytes⟩) ∧
        Number.Spells value bytes ∧ 1 ≤ bytes.length ∧ bytes.length ≤ 5 ∧
          ∀ other, Number.Spells value other → bytes.length ≤ other.length := by
  constructor
  · obtain ⟨places, bytes, hwrites, hreads⟩ := Reader.each_of_each writable {}
    refine ⟨places, _, hwrites, hreads _ _ rfl ⟨?_, ?_⟩⟩
    · exact (List.append_nil _).symm
    · exact (Nat.zero_add _).symm
  · intro value
    have hspells := Number.spells_encode value
    exact ⟨Number.encode value, fun _ => rfl, hspells, Number.length_pos_of_spells hspells,
      Number.length_encode_le_five value, fun _ hother => Number.length_encode_le hother⟩

/-- The items are written as the bytes `82 2c`, `6e c3 a9 00`, `02 00 01`, `00` and
`8f ff ff ff 7f`. -/
theorem Reader.each_of_writable_mixedItems :
    let items : List Item :=
      [.number 300, .string "né", .counted [0x00, 0x01], .byte 0x00, .number 0xFFFFFFFF]
    let bytes : Bytes := [0x82, 0x2C, 0x6E, 0xC3, 0xA9, 0x00, 0x02, 0x00, 0x01, 0x00,
      0x8F, 0xFF, 0xFF, 0xFF, 0x7F]
    (∀ item ∈ items, item.Writable) ∧ Writer.each items {} = .ok [2, 6, 9, 10, 15] ⟨bytes⟩ ∧
      Reader.each (items.map Item.kind) (Cursor.ofBytes bytes) =
        .ok [(.number 300, 2), (.bytes [0x6E, 0xC3, 0xA9], 6), (.bytes [0x00, 0x01], 9),
          (.byte 0x00, 10), (.number 0xFFFFFFFF, 15)] ⟨15, []⟩ := by
  intro items bytes
  have writable : ∀ item ∈ items, item.Writable := by
    simp only [items, List.forall_mem_cons, List.not_mem_nil, false_imp_iff, implies_true, and_true]
    refine ⟨trivial, ?_, ?_, trivial, trivial⟩
    · change '\x00' ∉ "né".toList
      decide
    · change 2 < Frame.countLimit
      decide
  have hwritten : Writer.each items {} = .ok [2, 6, 9, 10, 15] ⟨bytes⟩ := by rfl
  obtain ⟨⟨places, buffer, hwrites, hreads⟩, -⟩ := Reader.each_of_writable writable
  rw [hwritten] at hwrites
  cases hwrites
  exact ⟨writable, hwritten, hreads⟩

end BinaryXml
