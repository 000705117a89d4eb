import Mathlib.Data.List.Induction
import BinaryXml.Proofs.Stream.Sequences

/-! # Writes one after the other

* `Write` is a write, and `Writer.after` is the buffer behind writes of which some may have failed.
* `Write.added`: what a write adds to any buffer, all of it or the token in front of it alone.
* `Writer.bytes_after`: a buffer is what the writes have added.
* `Writer.kept_iff_of_failed`: a write that fails leaves the buffer as it was, unless it puts a
  token in front of what it cannot write.
-/

namespace BinaryXml

set_option autoImplicit false

/-! ## Writes -/

namespace Item

def form : Item → Bytes
  | .byte value => [value]
  | .number value => Number.encode value
  | .string text => Frame.terminated text
  | .counted data => Frame.counted data

instance : DecidablePred Writable
  | .byte _ => inferInstanceAs (Decidable True)
  | .number _ => inferInstanceAs (Decidable True)
  | .string text => inferInstanceAs (Decidable ('\x00' ∉ text.toList))
  | .counted data => inferInstanceAs (Decidable (data.length < Frame.countLimit))

end Item

/-- A write, with what is written. -/
inductive Write where
  | plain (item : Item)
  | inlineString (text : String)
  | opaqueData (data : Bytes)
  | bytes (data : Bytes)
deriving Repr, DecidableEq

namespace Write

def writer : Write → Writer
  | .plain item => Writer.item item
  | .inlineString text => Writer.inlineString text
  | .opaqueData data => Writer.opaqueData data
  | .bytes data => Writer.bytes data

/-- The token that stands in front of what is written. -/
def token? : Write → Option UInt8
  | .plain _ | .bytes _ => none
  | .inlineString _ => some Code.inlineString
  | .opaqueData _ => some Code.opaqueData

/-- The item behind the token can be written. -/
def Writable : Write → Prop
  | .plain item => item.Writable
  | .inlineString text => (Item.string text).Writable
  | .opaqueData data => (Item.counted data).Writable
  | .bytes _ => True

instance : DecidablePred Writable
  | .plain item => inferInstanceAs (Decidable item.Writable)
  | .inlineString text => inferInstanceAs (Decidable (Item.string text).Writable)
  | .opaqueData data => inferInstanceAs (Decidable (Item.counted data).Writable)
  | .bytes _ => inferInstanceAs (Decidable True)

def form : Write → Bytes
  | .plain item => item.form
  | .inlineString text => Code.inlineString :: (Item.string text).form
  | .opaqueData data => Code.opaqueData :: (Item.counted data).form
  | .bytes data => data

/-- What a write adds to a buffer. The token is there even if nothing else is. -/
def added (write : Write) : Bytes :=
  if write.Writable then write.form else write.token?.toList

end Write

/-! ## One write -/

section Tried
variable {item : Item} {write : Write}

theorem Item.tried_of_writable (h : item.Writable) (buffer : Buffer) :
    tried (Writer.item item) buffer = (.ok (), ⟨buffer.bytes ++ item.form⟩) := by
  cases item with
  | byte value => rfl
  | number value => rfl
  | string text =>
    rw [Writer.item, Writer.string, Frame.terminated?_eq_ok_iff.mpr ⟨h, rfl⟩]
    rfl
  | counted data =>
    rw [Writer.item, Writer.counted, Frame.counted?_eq_ok_iff.mpr ⟨h, rfl⟩]
    rfl

theorem Item.tried_of_not_writable (h : ¬ item.Writable) (buffer : Buffer) :
    ∃ error, tried (Writer.item item) buffer = (.error error, buffer) := by
  cases item with
  | byte value => exact absurd trivial h
  | number value => exact absurd trivial h
  | string text =>
    cases hframe : Frame.terminated? text with
    | ok bytes => exact absurd (Frame.terminated?_eq_ok_iff.mp hframe).1 h
    | error error => exact ⟨error, by rw [Writer.item, Writer.string, hframe]; rfl⟩
  | counted data =>
    cases hframe : Frame.counted? data with
    | ok bytes => exact absurd (Frame.counted?_eq_ok_iff.mp hframe).1 h
    | error error => exact ⟨error, by rw [Writer.item, Writer.counted, hframe]; rfl⟩

/-- The token is in the buffer before the item behind it is looked at. -/
theorem tried_behind_token (token : UInt8) (item : Item) (buffer : Buffer) :
    tried (do Writer.byte token; Writer.item item) buffer =
      tried (Writer.item item) ⟨buffer.bytes ++ [token]⟩ := by
  rw [tried_bind]
  rfl

theorem tried_behind_token_of_writable (token : UInt8) (item : Item) (h : item.Writable)
    (buffer : Buffer) : tried (do Writer.byte token; Writer.item item) buffer =
      (.ok (), ⟨buffer.bytes ++ token :: item.form⟩) := by
  rw [tried_behind_token, Item.tried_of_writable h, List.append_assoc]
  rfl

theorem tried_behind_token_of_not_writable (token : UInt8) (item : Item) (h : ¬ item.Writable)
    (buffer : Buffer) : ∃ error, tried (do Writer.byte token; Writer.item item) buffer =
      (.error error, ⟨buffer.bytes ++ [token]⟩) := by
  rw [tried_behind_token]
  exact Item.tried_of_not_writable h _

namespace Write

theorem tried_of_writable (h : write.Writable) (buffer : Buffer) :
    tried write.writer buffer = (.ok (), ⟨buffer.bytes ++ write.form⟩) := by
  cases write with
  | plain item => exact Item.tried_of_writable h buffer
  | inlineString text => exact tried_behind_token_of_writable _ (.string text) h buffer
  | opaqueData data => exact tried_behind_token_of_writable _ (.counted data) h buffer
  | bytes data => rfl

theorem tried_of_not_writable (h : ¬ write.Writable) (buffer : Buffer) :
    ∃ error, tried write.writer buffer = (.error error, ⟨buffer.bytes ++ write.token?.toList⟩) := by
  cases write with
  | plain item =>
    rw [token?, Option.toList_none, List.append_nil]
    exact Item.tried_of_not_writable h buffer
  | inlineString text => exact tried_behind_token_of_not_writable _ (.string text) h buffer
  | opaqueData data => exact tried_behind_token_of_not_writable _ (.counted data) h buffer
  | bytes data => exact absurd trivial h

/-- Whether a write fails or not, what it adds does not hang on the buffer. -/
theorem bytes_tried (write : Write) (buffer : Buffer) :
    (tried write.writer buffer).2 = ⟨buffer.bytes ++ write.added⟩ := by
  unfold added
  split
  · rename_i h
    rw [tried_of_writable h]
  · rename_i h
    obtain ⟨error, herror⟩ := tried_of_not_writable h buffer
    rw [herror]

end Write

end Tried

/-! ## Writes behind others -/

namespace Writer

/-- The buffer behind writes. A write that fails does not end them. -/
def after (writes : List Write) : Buffer :=
  triedAll (writes.map Write.writer) {}

variable {writes : List Write} {write : Write}

theorem after_concat (writes : List Write) (write : Write) :
    after (writes ++ [write]) = ⟨(after writes).bytes ++ write.added⟩ := by
  rw [after, List.map_append, List.map_singleton, triedAll_concat, Write.bytes_tried]
  rfl

theorem bytes_after (writes : List Write) : (after writes).bytes = writes.flatMap Write.added := by
  induction writes using List.reverseRecOn with
  | nil => rfl
  | append_singleton writes write ih =>
    rw [after_concat, List.flatMap_append, List.flatMap_singleton, ih]

/-- What was added are the writes that did not fail, and the tokens of those that did. -/
theorem length_flatMap_added (writes : List Write) :
    (writes.flatMap Write.added).length =
      ((writes.filter (·.Writable)).flatMap Write.form).length +
        ((writes.filter (¬ ·.Writable)).flatMap (·.token?.toList)).length := by
  induction writes with
  | nil => rfl
  | cons first rest ih =>
    rw [List.flatMap_cons, List.length_append, ih]
    by_cases h : first.Writable
    · rw [Write.added, if_pos h, List.filter_cons_of_pos (by simpa using h),
        List.filter_cons_of_neg (by simpa using h), List.flatMap_cons, List.length_append,
        Nat.add_assoc]
    · rw [Write.added, if_neg h, List.filter_cons_of_neg (by simpa using h),
        List.filter_cons_of_pos (by simpa using h), List.flatMap_cons, List.length_append,
        Nat.add_left_comm]

theorem flatMap_added_of_silent (h : ∀ write ∈ writes, ¬ write.Writable → write.token? = none) :
    writes.flatMap Write.added = (writes.filter (·.Writable)).flatMap Write.form := by
  induction writes with
  | nil => rfl
  | cons first rest ih =>
    obtain ⟨hfirst, hrest⟩ := List.forall_mem_cons.mp h
    rw [List.flatMap_cons, ih hrest]
    by_cases hwritable : first.Writable
    · rw [Write.added, if_pos hwritable, List.filter_cons_of_pos (by simpa using hwritable),
        List.flatMap_cons]
    · rw [Write.added, if_neg hwritable, List.filter_cons_of_neg (by simpa using hwritable),
        hfirst hwritable]
      rfl

/-- A token that was left behind makes the buffer too long. -/
theorem flatMap_added_eq_iff :
    writes.flatMap Write.added = (writes.filter (·.Writable)).flatMap Write.form ↔
      ∀ write ∈ writes, ¬ write.Writable → write.token? = none := by
  -- Bytes alone do not tell where a token came from, but their number leaves room for none.
  refine ⟨fun h write hmem hfailed => ?_, flatMap_added_of_silent⟩
  have hlength := length_flatMap_added writes
  rw [h, Nat.left_eq_add, List.length_eq_zero_iff, List.flatMap_eq_nil_iff] at hlength
  have hfiltered : write ∈ writes.filter (¬ ·.Writable) :=
    List.mem_filter.mpr ⟨hmem, decide_eq_true hfailed⟩
  exact Option.toList_eq_nil_iff.mp (hlength write hfiltered)

/-- Behind any writes, failed ones among them, a write fails exactly if it is not writable, and a
write that fails leaves the buffer as it was exactly if it has no token. The buffer is what the
writes that did not fail are written as, exactly if none with a token failed. -/
theorem kept_iff_of_failed (writes : List Write) (write : Write) :
    (after writes).bytes = writes.flatMap Write.added ∧
    ((∃ error, (tried write.writer (after writes)).1 = .error error) ↔ ¬ write.Writable) ∧
    (¬ write.Writable →
      ((tried write.writer (after writes)).2 = after writes ↔ write.token? = none)) ∧
    ((after writes).bytes = (writes.filter (·.Writable)).flatMap Write.form ↔
      ∀ write ∈ writes, ¬ write.Writable → write.token? = none) := by
  refine ⟨bytes_after writes, ?_, fun hfailed => ?_, ?_⟩
  · by_cases h : write.Writable
    · rw [Write.tried_of_writable h]
      simp [h]
    · obtain ⟨error, herror⟩ := Write.tried_of_not_writable h (after writes)
      exact iff_of_true ⟨error, by rw [herror]⟩ h
  · obtain ⟨error, herror⟩ := Write.tried_of_not_writable hfailed (after writes)
    rw [herror]
    constructor
    · intro hsame
      have hbytes := List.append_right_eq_self.mp (congrArg Buffer.bytes hsame)
      exact Option.toList_eq_nil_iff.mp hbytes
    · intro hnone
      rw [hnone, Option.toList_none, List.append_nil]
  · rw [bytes_after]
    exact flatMap_added_eq_iff

/-- A string with a zero character is refused in two places: on its own it leaves nothing, and the
token in front of it stays. -/
theorem kept_iff_of_failed_zeroStrings :
    let writes : List Write := [.plain (.string "ab"), .plain (.string "a\x00b"), .bytes [0x05]]
    (after writes).bytes = [0x61, 0x62, 0x00, 0x05] ∧
      (¬ (Write.plain (.string "\x00")).Writable ∧
        (tried (Write.plain (.string "\x00")).writer (after writes)).2 = after writes) ∧
      (¬ (Write.inlineString "\x00").Writable ∧
        (tried (Write.inlineString "\x00").writer (after writes)).2 ≠ after writes) := by
  intro writes
  have hplain : ¬ (Write.plain (.string "\x00")).Writable := by decide
  have hinline : ¬ (Write.inlineString "\x00").Writable := by decide
  refine ⟨?_, ⟨hplain, ?_⟩, hinline, ?_⟩
  · rw [(kept_iff_of_failed writes (.bytes [])).1]
    rfl
  · exact ((kept_iff_of_failed writes _).2.2.1 hplain).mpr rfl
  · exact mt ((kept_iff_of_failed writes _).2.2.1 hinline).mp nofun

/-- The token of an inline string stays in the buffer when the string is refused. -/
theorem not_kept_zeroString :
    ¬ ∀ (writes : List Write) (write : Write) (error : Error) (buffer : Buffer),
      tried write.writer (after writes) = (.error error, buffer) → buffer = after writes := by
  intro h
  have hbuffer := h [] (.inlineString "a\x00b") (.encoding (.nulInString 1)) ⟨[0x03]⟩ rfl
  cases hbuffer

end Writer

end BinaryXml
