import Mathlib.Data.List.Induction
import BinaryXml.Text.Numeral

/-! # Numerals that are read again

* `readDigits_digits`: hexadecimal digits denote the number that they were written for.
* `toNat_of_mem_digits`: they are digits and letters.
* `Denotes`: the number that one or more digits denote; `readDigits_eq_some_iff`: they are read as
  that number.
-/

namespace BinaryXml.Numeral

set_option autoImplicit false

theorem digitValue?_digit : ∀ value < 16, digitValue? 16 (digit value) = some value := by
  decide

theorem toNat_digit : ∀ value < 16, 0x30 ≤ (digit value).toNat ∧ (digit value).toNat ≤ 0x39 ∨
    0x41 ≤ (digit value).toNat ∧ (digit value).toNat ≤ 0x46 := by
  decide

theorem valueFrom?_cons (base value : Nat) (c : Char) (rest : List Char) :
    valueFrom? base value (c :: rest) =
      (digitValue? base c).bind fun digit => valueFrom? base (value * base + digit) rest := rfl

theorem valueFrom?_append (base value : Nat) (front back : List Char) :
    valueFrom? base value (front ++ back) =
      (valueFrom? base value front).bind (valueFrom? base · back) := by
  induction front generalizing value with
  | nil => rfl
  | cons c front ih =>
    rw [List.cons_append, valueFrom?_cons, valueFrom?_cons]
    cases digitValue? base c with
    | none => rfl
    | some digit => exact ih _

theorem valueFrom?_digitsFrom {value bound : Nat} (h : value < bound) :
    valueFrom? 16 0 (digitsFrom 16 value bound) = some value := by
  induction bound generalizing value with
  | zero => omega
  | succ bound ih =>
    unfold digitsFrom
    split
    · rename_i hsmall
      simp [valueFrom?, digitValue?_digit value hsmall]
    · have hdigit := digitValue?_digit (value % 16) (Nat.mod_lt _ (by decide))
      rw [valueFrom?_append, ih (by omega), Option.bind_some]
      simp only [valueFrom?, hdigit, Option.bind_eq_bind, Option.bind_some]
      congr 1
      omega

theorem mem_digitsFrom {value bound : Nat} {c : Char} (h : c ∈ digitsFrom 16 value bound) :
    0x30 ≤ c.toNat ∧ c.toNat ≤ 0x39 ∨ 0x41 ≤ c.toNat ∧ c.toNat ≤ 0x46 := by
  induction bound generalizing value with
  | zero => cases h
  | succ bound ih =>
    unfold digitsFrom at h
    split at h
    · rename_i hsmall
      rw [List.mem_singleton.mp h]
      exact toNat_digit value hsmall
    · rcases List.mem_append.mp h with hfront | hlast
      · exact ih hfront
      · rw [List.mem_singleton.mp hlast]
        exact toNat_digit _ (Nat.mod_lt _ (by decide))

theorem toNat_of_mem_digits {value : Nat} {c : Char} (h : c ∈ digits 16 value) :
    0x30 ≤ c.toNat ∧ c.toNat ≤ 0x39 ∨ 0x41 ≤ c.toNat ∧ c.toNat ≤ 0x46 :=
  mem_digitsFrom h

theorem readDigits_digits (value : Nat) : readDigits 16 (digits 16 value) = some value := by
  have hvalue : valueFrom? 16 0 (digits 16 value) = some value :=
    valueFrom?_digitsFrom (Nat.lt_succ_self value)
  have hne : digits 16 value ≠ [] := by
    unfold digits digitsFrom
    split <;> simp
  unfold readDigits
  split
  · rename_i hnil
    exact absurd hnil hne
  · exact hvalue

theorem read_digits {value bound : Nat} (h : value < bound) :
    read 16 bound (digits 16 value) = some value := by
  unfold read
  split
  · rename_i rest heq
    have hplus : '+' ∈ digits 16 value := by
      rw [heq]
      exact List.mem_cons_self
    exact absurd (toNat_of_mem_digits hplus) (by decide)
  · simp [readDigits_digits, h]

/-! ## What digits denote -/

/-- A digit with its value. -/
inductive Digit : Char → Nat → Prop
  | decimal {value : Nat} (small : value < 10) : Digit (Char.ofNat ('0'.toNat + value)) value
  | lower {value : Nat} (small : value < 6) : Digit (Char.ofNat ('a'.toNat + value)) (10 + value)
  | upper {value : Nat} (small : value < 6) : Digit (Char.ofNat ('A'.toNat + value)) (10 + value)

/-- One or more digits below `base`, the most significant first, denote a number. -/
inductive Denotes (base : Nat) : List Char → Nat → Prop
  | digit {c : Char} {value : Nat} (last : Digit c value) (small : value < base) :
      Denotes base [c] value
  | concat {front : List Char} {c : Char} {number value : Nat} (others : Denotes base front number)
      (last : Digit c value) (small : value < base) :
      Denotes base (front ++ [c]) (number * base + value)

theorem digitValue?_eq_some_iff {base value : Nat} {c : Char} :
    digitValue? base c = some value ↔ Digit c value ∧ value < base := by
  constructor
  · intro h
    obtain ⟨hvalue, hsmall⟩ := Option.filter_eq_some_iff.mp h
    refine ⟨?_, by simpa using hsmall⟩
    have hchar {first value : Nat} (h : c.toNat = first + value) : Char.ofNat (first + value) = c := by
      rw [← h, Char.ofNat_toNat]
    split at hvalue
    · rename_i hrange
      obtain ⟨value, hc⟩ := Nat.exists_eq_add_of_le hrange.1
      rw [hc, Nat.add_sub_cancel_left] at hvalue
      rw [← hchar hc, ← Option.some.inj hvalue]
      exact .decimal (by omega)
    split at hvalue
    · rename_i hrange
      obtain ⟨value, hc⟩ := Nat.exists_eq_add_of_le hrange.1
      rw [hc, show 0x41 + value - 0x37 = 10 + value by omega] at hvalue
      rw [← hchar hc, ← Option.some.inj hvalue]
      exact .upper (by omega)
    split at hvalue
    · rename_i hrange
      obtain ⟨value, hc⟩ := Nat.exists_eq_add_of_le hrange.1
      rw [hc, show 0x61 + value - 0x57 = 10 + value by omega] at hvalue
      rw [← hchar hc, ← Option.some.inj hvalue]
      exact .lower (by omega)
    · cases hvalue
  · rintro ⟨hdigit, hsmall⟩
    have hwide : digitValue? 16 c = some value := by
      cases hdigit with
      | decimal small => exact (by decide : ∀ value < 10,
          digitValue? 16 (Char.ofNat ('0'.toNat + value)) = some value) _ small
      | lower small => exact (by decide : ∀ value < 6,
          digitValue? 16 (Char.ofNat ('a'.toNat + value)) = some (10 + value)) _ small
      | upper small => exact (by decide : ∀ value < 6,
          digitValue? 16 (Char.ofNat ('A'.toNat + value)) = some (10 + value)) _ small
    exact Option.filter_eq_some_iff.mpr
      ⟨(Option.filter_eq_some_iff.mp hwide).1, by simpa using hsmall⟩

theorem not_denotes_nil {base number : Nat} : ¬ Denotes base [] number := by
  intro h
  generalize hnil : ([] : List Char) = chars at h
  cases h with
  | digit => cases hnil
  | concat => simp at hnil

theorem denotes_concat_iff {base number : Nat} {front : List Char} {c : Char} :
    Denotes base (front ++ [c]) number ↔ ∃ value, Digit c value ∧ value < base ∧
      (front = [] ∧ number = value ∨
        ∃ others, Denotes base front others ∧ number = others * base + value) := by
  constructor
  · intro h
    generalize hchars : front ++ [c] = chars at h
    cases h with
    | digit last small =>
      obtain ⟨rfl, hc⟩ := List.append_inj' (hchars.trans (List.nil_append _).symm) rfl
      cases hc
      exact ⟨_, last, small, .inl ⟨rfl, rfl⟩⟩
    | concat others last small =>
      obtain ⟨rfl, hc⟩ := List.append_inj' hchars rfl
      cases hc
      exact ⟨_, last, small, .inr ⟨_, others, rfl⟩⟩
  · rintro ⟨value, last, small, ⟨rfl, rfl⟩ | ⟨others, hothers, rfl⟩⟩
    · exact .digit last small
    · exact .concat hothers last small

theorem readDigits_eq_some_iff {base number : Nat} {chars : List Char} :
    readDigits base chars = some number ↔ Denotes base chars number := by
  -- From the last digit, as the numeral is denoted; the reader folds from the first one.
  induction chars using List.reverseRecOn generalizing number with
  | nil => exact iff_of_false nofun not_denotes_nil
  | append_singleton front c ih =>
    have hread : readDigits base (front ++ [c]) = valueFrom? base 0 (front ++ [c]) := by
      cases front <;> rfl
    have hsingle (start : Nat) : valueFrom? base start [c] =
        (digitValue? base c).map (start * base + ·) := by
      rw [valueFrom?_cons]
      cases digitValue? base c <;> rfl
    rw [hread, valueFrom?_append, denotes_concat_iff]
    simp only [Option.bind_eq_some_iff, hsingle, Option.map_eq_some_iff, digitValue?_eq_some_iff]
    cases front with
    | nil =>
      simp only [not_denotes_nil, false_and, exists_false, or_false, true_and]
      constructor
      · rintro ⟨_, ⟨⟩, value, ⟨hdigit, hsmall⟩, rfl⟩
        exact ⟨value, hdigit, hsmall, by omega⟩
      · rintro ⟨value, hdigit, hsmall, rfl⟩
        exact ⟨0, rfl, number, ⟨hdigit, hsmall⟩, by omega⟩
    | cons first front =>
      have hfront (others : Nat) : valueFrom? base 0 (first :: front) = some others ↔
          Denotes base (first :: front) others := ih
      simp only [hfront, List.cons_ne_nil, false_and, false_or]
      constructor
      · rintro ⟨others, hothers, value, ⟨hdigit, hsmall⟩, rfl⟩
        exact ⟨value, hdigit, hsmall, others, hothers, rfl⟩
      · rintro ⟨value, hdigit, hsmall, others, hothers, rfl⟩
        exact ⟨others, hothers, value, ⟨hdigit, hsmall⟩, rfl⟩

end BinaryXml.Numeral
