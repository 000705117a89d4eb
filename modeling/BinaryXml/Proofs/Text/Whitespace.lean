import Mathlib.Data.List.DropRight
import BinaryXml.Text.Whitespace

/-! # White space is treated once

* `trimChars_trimChars`: trimming what was trimmed changes nothing.
* `Whitespace.apply_of_apply`: a text that a policy leaves is left as it is by the same policy.
-/

namespace BinaryXml

set_option autoImplicit false

namespace Blank

theorem trimChars_eq (chars : List Char) :
    trimChars chars = (chars.dropWhile isBlank).rdropWhile isBlank := rfl

/-- The first character of a trimmed text was the first one before its end was cut. -/
theorem dropWhile_trimChars (chars : List Char) :
    (trimChars chars).dropWhile isBlank = trimChars chars := by
  rw [List.dropWhile_eq_self_iff]
  intro hlength
  have hbegins : trimChars chars <+: chars.dropWhile isBlank := List.rdropWhile_prefix _ _
  rw [hbegins.getElem hlength]
  exact List.dropWhile_get_zero_not isBlank chars (Nat.lt_of_lt_of_le hlength hbegins.length_le)

theorem trimChars_trimChars (chars : List Char) : trimChars (trimChars chars) = trimChars chars := by
  rw [trimChars_eq (trimChars chars), dropWhile_trimChars, trimChars_eq,
    List.rdropWhile_idempotent]

theorem trim_trim (text : String) : trim (trim text) = trim text := by
  unfold trim
  rw [String.toList_ofList, trimChars_trimChars]

theorem dropWhile_eq_self_iff {chars : List Char} :
    chars.dropWhile isBlank = chars ↔ ∀ c, chars.head? = some c → isBlank c = false := by
  cases chars with
  | nil => simp
  | cons c rest => rw [List.dropWhile_eq_self_iff]; simp

theorem rdropWhile_eq_self_iff {chars : List Char} :
    chars.rdropWhile isBlank = chars ↔ ∀ c, chars.getLast? = some c → isBlank c = false := by
  rw [List.rdropWhile, List.reverse_eq_iff, dropWhile_eq_self_iff, List.head?_reverse]

/-- A text is trimmed if and only if there is no blank character at its ends. -/
theorem trim_eq_self_iff {text : String} :
    trim text = text ↔ (∀ c, text.toList.head? = some c → isBlank c = false) ∧
      ∀ c, text.toList.getLast? = some c → isBlank c = false := by
  have hchars : trim text = text ↔ trimChars text.toList = text.toList := by
    rw [trim, ← String.toList_inj, String.toList_ofList]
  rw [hchars, ← dropWhile_eq_self_iff, ← rdropWhile_eq_self_iff]
  constructor
  · intro h
    have hfront := dropWhile_trimChars text.toList
    rw [h] at hfront
    rw [trimChars_eq, hfront] at h
    exact ⟨hfront, h⟩
  · rintro ⟨hfront, hback⟩
    rw [trimChars_eq, hfront, hback]

theorem trim_sublist (text : String) : (trim text).toList.Sublist text.toList := by
  rw [trim, String.toList_ofList, trimChars_eq]
  exact (List.rdropWhile_prefix _ _).sublist.trans (List.dropWhile_suffix _).sublist

theorem mem_of_mem_trim {text : String} {c : Char} (h : c ∈ (trim text).toList) :
    c ∈ text.toList :=
  (trim_sublist text).subset h

/-- What does not begin with a blank character stays when blank ones are taken from the front. -/
theorem sublist_dropWhile {part chars : List Char} (h : part.Sublist chars)
    (hpart : part.dropWhile isBlank = part) : part.Sublist (chars.dropWhile isBlank) := by
  induction h with
  | slnil => exact .slnil
  | @cons part chars c hsub ih =>
    rw [List.dropWhile_cons]
    split
    · exact ih hpart
    · exact hsub.cons c
  | @cons_cons part chars c hsub ih =>
    have hblank : isBlank c = false := dropWhile_eq_self_iff.mp hpart c rfl
    rw [List.dropWhile_cons_of_neg (by simp [hblank])]
    exact hsub.cons_cons c

/-- A trimmed part of a text is a part of the trimmed text. -/
theorem sublist_trim {part text : String} (h : part.toList.Sublist text.toList)
    (hpart : trim part = part) : part.toList.Sublist (trim text).toList := by
  obtain ⟨hfront, hback⟩ := trim_eq_self_iff.mp hpart
  rw [trim, String.toList_ofList, trimChars, ← List.reverse_sublist, List.reverse_reverse]
  have hdropped := sublist_dropWhile h (dropWhile_eq_self_iff.mpr hfront)
  refine sublist_dropWhile hdropped.reverse (dropWhile_eq_self_iff.mpr fun c hc => ?_)
  exact hback c (List.head?_reverse ▸ hc)

/-- Two texts that were trimmed are still trimmed when they are put together. -/
theorem trim_append_trim (front back : String) :
    trim (trim front ++ trim back) = trim front ++ trim back := by
  obtain ⟨hfrontHead, hfrontLast⟩ := trim_eq_self_iff.mp (trim_trim front)
  obtain ⟨hbackHead, hbackLast⟩ := trim_eq_self_iff.mp (trim_trim back)
  refine trim_eq_self_iff.mpr ⟨fun c hc => ?_, fun c hc => ?_⟩
  · rw [String.toList_append, List.head?_append, Option.or_eq_some_iff] at hc
    exact hc.elim (hfrontHead c) fun h => hbackHead c h.2
  · rw [String.toList_append, List.getLast?_append, Option.or_eq_some_iff] at hc
    exact hc.elim (hbackLast c) fun h => hfrontLast c h.2

/-- Trimming two texts takes away no less than trimming the text of both. -/
theorem trim_append_sublist (front back : String) :
    (trim front ++ trim back).toList.Sublist (trim (front ++ back)).toList := by
  refine sublist_trim ?_ (trim_append_trim front back)
  rw [String.toList_append, String.toList_append]
  exact (trim_sublist front).append (trim_sublist back)

theorem length_trim_append_le (front back : String) :
    (trim front).length + (trim back).length ≤ (trim (front ++ back)).length := by
  have hlength := (trim_append_sublist front back).length_le
  rwa [String.length_toList, String.length_toList, String.length_append] at hlength

/-- It takes away the same if it takes away as many characters. -/
theorem trim_append_of_length {front back : String}
    (h : (trim (front ++ back)).length ≤ (trim front).length + (trim back).length) :
    trim (front ++ back) = trim front ++ trim back := by
  refine (String.toList_inj.mp ((trim_append_sublist front back).eq_of_length_le ?_)).symm
  rwa [String.length_toList, String.length_toList, String.length_append]

/-- Trimming leaves out blank characters only. -/
theorem mem_trim_iff {text : String} {c : Char} (hc : isBlank c = false) :
    c ∈ (trim text).toList ↔ c ∈ text.toList := by
  have hdrop (chars : List Char) (h : c ∈ chars) : c ∈ chars.dropWhile isBlank := by
    rw [← List.takeWhile_append_dropWhile (p := isBlank) (l := chars), List.mem_append] at h
    refine h.resolve_left fun hfront => ?_
    have hblank := List.mem_takeWhile_imp hfront
    rw [hc] at hblank
    cases hblank
  refine ⟨mem_of_mem_trim, fun h => ?_⟩
  rw [trim, String.toList_ofList, trimChars, List.mem_reverse]
  exact hdrop _ (List.mem_reverse.mpr (hdrop _ h))

end Blank

namespace Whitespace

theorem some_unless_empty_iff {left kept : String} :
    (if left.isEmpty then none else some left) = some kept ↔ kept ≠ "" ∧ kept = left := by
  split
  · rename_i hempty
    constructor
    · rintro ⟨⟩
    · rintro ⟨hne, rfl⟩
      exact absurd (String.isEmpty_iff.mp hempty) hne
  · rename_i hempty
    constructor
    · rintro ⟨⟩
      exact ⟨mt String.isEmpty_iff.mpr hempty, rfl⟩
    · rintro ⟨-, rfl⟩
      rfl

theorem preserve_apply_iff {text kept : String} :
    preserve.apply text = some kept ↔ kept ≠ "" ∧ kept = text := some_unless_empty_iff

theorem strip_apply_iff {text kept : String} :
    strip.apply text = some kept ↔ kept ≠ "" ∧ kept = Blank.trim text := some_unless_empty_iff

/-- What is left of a text, empty if nothing is. -/
def kept (whitespace : Whitespace) (text : String) : String :=
  match whitespace with
  | .preserve => text
  | .strip => Blank.trim text

theorem join_apply (whitespace : Whitespace) (text : String) :
    String.join (whitespace.apply text).toList = whitespace.kept text := by
  change String.join (if (whitespace.kept text).isEmpty then none
    else some (whitespace.kept text)).toList = whitespace.kept text
  split
  · rename_i hempty
    rw [String.isEmpty_iff.mp hempty]
    rfl
  · exact String.empty_append

theorem kept_preserve (text : String) : preserve.kept text = text := rfl

theorem kept_strip (text : String) : strip.kept text = Blank.trim text := rfl

/-- What is left of a text is left again if white space is preserved. -/
theorem preserve_apply_kept (whitespace : Whitespace) (text : String) :
    preserve.apply (whitespace.kept text) = whitespace.apply text := rfl

theorem apply_empty (whitespace : Whitespace) : whitespace.apply "" = none := by
  cases whitespace <;> decide

/-- A text that is left is not empty, and the same policy leaves it as it is. -/
theorem apply_of_apply {whitespace : Whitespace} {text kept : String}
    (h : whitespace.apply text = some kept) : kept ≠ "" ∧ whitespace.apply kept = some kept := by
  cases whitespace with
  | preserve =>
    obtain ⟨hne, rfl⟩ := preserve_apply_iff.mp h
    exact ⟨hne, h⟩
  | strip =>
    obtain ⟨hne, rfl⟩ := strip_apply_iff.mp h
    exact ⟨hne, strip_apply_iff.mpr ⟨hne, (Blank.trim_trim text).symm⟩⟩

/-- What is left of a text has its characters only. -/
theorem mem_of_apply {whitespace : Whitespace} {text kept : String} {c : Char}
    (h : whitespace.apply text = some kept) (hmem : c ∈ kept.toList) : c ∈ text.toList := by
  cases whitespace with
  | preserve =>
    obtain ⟨-, rfl⟩ := preserve_apply_iff.mp h
    exact hmem
  | strip =>
    obtain ⟨-, rfl⟩ := strip_apply_iff.mp h
    exact Blank.mem_of_mem_trim hmem

theorem length_of_apply {whitespace : Whitespace} {text kept : String}
    (h : whitespace.apply text = some kept) : kept.length ≤ text.length := by
  cases whitespace with
  | preserve =>
    obtain ⟨-, rfl⟩ := preserve_apply_iff.mp h
    exact Nat.le_refl _
  | strip =>
    obtain ⟨-, rfl⟩ := strip_apply_iff.mp h
    have hlength := (Blank.trim_sublist text).length_le
    rwa [String.length_toList, String.length_toList] at hlength

/-- A character that is not blank is in what is left, and if nothing is left there was none. -/
theorem mem_apply_iff {whitespace : Whitespace} {text : String} {c : Char}
    (hc : Blank.isBlank c = false) :
    (∃ kept, whitespace.apply text = some kept ∧ c ∈ kept.toList) ↔ c ∈ text.toList := by
  constructor
  · rintro ⟨kept, hkept, hmem⟩
    exact mem_of_apply hkept hmem
  · intro hmem
    have hne {left : String} (h : c ∈ left.toList) : left ≠ "" := by
      rintro rfl
      cases h
    cases whitespace with
    | preserve => exact ⟨text, preserve_apply_iff.mpr ⟨hne hmem, rfl⟩, hmem⟩
    | strip =>
      have htrim := (Blank.mem_trim_iff hc).mpr hmem
      exact ⟨_, strip_apply_iff.mpr ⟨hne htrim, rfl⟩, htrim⟩

end Whitespace

end BinaryXml
