import BinaryXml.Proofs.Stream.Forms
import BinaryXml.Proofs.Text.Utf8
import BinaryXml.Stream.StringTable

/-! # String tables that are made are tables that can be read

* `terminated?_eq_ok_iff` and `counted?_eq_ok_iff`: what a frame holds, if it is not refused.
* `TableBuilder.Refers`: an offset is the one of an entry. It stays so when a table grows.
* `intern_eq_ok`: a string joins the table and gets its offset.
* `holds_of_refers`: at the offset of an entry the bytes of the table have that entry.
-/

namespace BinaryXml

set_option autoImplicit false

/-! ## Frames -/

namespace Frame

theorem length_takeWhile_lt_iff (data : Bytes) :
    (data.takeWhile (· != 0)).length < data.length ↔ 0 ∈ data := by
  induction data with
  | nil => simp
  | cons b rest ih =>
    by_cases hb : b = 0
    · simp [hb]
    · have hne : (0 : UInt8) ≠ b := fun h => hb h.symm
      simp [hb, hne, ih]

theorem terminated?_eq_ok_iff {text : String} {bytes : Bytes} :
    terminated? text = .ok bytes ↔ '\x00' ∉ text.toList ∧ bytes = terminated text := by
  unfold terminated?
  dsimp only
  rw [← Utf8.zero_mem_encode_iff]
  split
  · rename_i h
    rw [length_takeWhile_lt_iff] at h
    constructor
    · rintro ⟨⟩
    · rintro ⟨hzero, -⟩
      exact absurd h hzero
  · rename_i h
    rw [length_takeWhile_lt_iff] at h
    constructor
    · rintro ⟨⟩
      exact ⟨h, rfl⟩
    · rintro ⟨-, rfl⟩
      rfl

theorem counted?_eq_ok_iff {data bytes : Bytes} :
    counted? data = .ok bytes ↔ data.length < countLimit ∧ bytes = counted data := by
  unfold counted?
  split
  · rename_i h
    constructor
    · rintro ⟨⟩
      exact ⟨h, rfl⟩
    · rintro ⟨-, rfl⟩
      rfl
  · rename_i h
    constructor
    · rintro ⟨⟩
    · rintro ⟨hlt, -⟩
      exact absurd hlt h

end Frame

namespace Grammar

theorem terminated_encode {text : String} (h : '\x00' ∉ text.toList) :
    Terminated (Utf8.encode text) (Frame.terminated text) :=
  ⟨rfl, mt (Utf8.zero_mem_encode_iff text).mp h⟩

theorem counted_of_lt {data : Bytes} (h : data.length < Frame.countLimit) :
    Counted data (Frame.counted data) := by
  refine ⟨UInt32.ofNat data.length, _, Number.spells_encode _, ?_, rfl⟩
  rw [UInt32.toNat_ofNat']
  exact Nat.mod_eq_of_lt h

end Grammar

/-! ## Tables -/

namespace TableBuilder

/-- An offset is the one of an entry. -/
def Refers (entries : List String) (offset : UInt32) (entry : String) : Prop :=
  ∃ before after, entries = before ++ entry :: after ∧
    offset = UInt32.ofNat (bytes ⟨before⟩).length

/-- No entry has a character that would end it early. -/
def Clean (entries : List String) : Prop :=
  ∀ entry ∈ entries, '\x00' ∉ entry.toList

theorem Refers.append {entries : List String} {offset : UInt32} {entry : String}
    (h : Refers entries offset entry) (more : List String) : Refers (entries ++ more) offset entry := by
  obtain ⟨before, after, rfl, hoffset⟩ := h
  exact ⟨before, after ++ more, by simp, hoffset⟩

theorem bytes_cons (first : String) (rest : List String) :
    bytes ⟨first :: rest⟩ = Frame.terminated first ++ bytes ⟨rest⟩ := rfl

theorem bytes_append (front back : List String) :
    bytes ⟨front ++ back⟩ = bytes ⟨front⟩ ++ bytes ⟨back⟩ := List.flatMap_append

theorem offsetFrom?_eq_some {entry : String} {start offset : Nat} {entries : List String}
    (h : offsetFrom? entry start entries = some offset) :
    ∃ before after, entries = before ++ entry :: after ∧
      offset = start + (bytes ⟨before⟩).length := by
  induction entries generalizing start with
  | nil => cases h
  | cons first rest ih =>
    rw [offsetFrom?] at h
    split at h
    · rename_i heq
      cases h
      exact ⟨[], rest, by rw [heq]; rfl, rfl⟩
    · obtain ⟨before, after, rfl, rfl⟩ := ih h
      refine ⟨first :: before, after, rfl, ?_⟩
      rw [bytes_cons, List.length_append, Nat.add_assoc]

/-- A string joins the table on its first use, and its offset is given. -/
theorem intern_eq_ok {entry : String} {table table' : TableBuilder} {offset : UInt32}
    (h : intern entry table = .ok offset table') :
    Refers table'.entries offset entry ∧
      ∃ more, table'.entries = table.entries ++ more ∧ Clean more := by
  unfold intern at h
  split at h
  · rename_i found hfound
    cases h
    obtain ⟨before, after, hentries, hoffset⟩ := offsetFrom?_eq_some hfound
    rw [Nat.zero_add] at hoffset
    refine ⟨⟨before, after, hentries, by rw [hoffset]⟩, [], (List.append_nil _).symm, ?_⟩
    intro entry hmem
    cases hmem
  · split at h
    · cases h
    · rename_i hnul
      split at h
      · cases h
        refine ⟨⟨table.entries, [], rfl, rfl⟩, [entry], rfl, ?_⟩
        intro other hmem
        rw [List.mem_singleton.mp hmem]
        simpa using hnul
      · cases h

/-- At the offset of an entry the bytes of the table have that entry. -/
theorem holds_of_refers {entries : List String} {offset : UInt32} {entry : String}
    (h : Refers entries offset entry) (hclean : Clean entries)
    (hsize : (bytes ⟨entries⟩).length < limit) :
    Grammar.Holds (bytes ⟨entries⟩) offset (Utf8.encode entry) := by
  obtain ⟨before, after, rfl, rfl⟩ := h
  have hzero : 0 ∉ Utf8.encode entry :=
    mt (Utf8.zero_mem_encode_iff entry).mp (hclean entry (by simp))
  refine ⟨bytes ⟨before⟩, bytes ⟨after⟩, ?_, ?_, hzero⟩
  · rw [bytes_append, bytes_cons, Frame.terminated]
    simp
  · rw [bytes_append, List.length_append] at hsize
    rw [UInt32.toNat_ofNat', Nat.mod_eq_of_lt (by unfold limit at hsize; omega)]

end TableBuilder

end BinaryXml
