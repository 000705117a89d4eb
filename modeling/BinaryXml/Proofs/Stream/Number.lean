import Mathlib.Algebra.Group.Nat.Defs
import BinaryXml.Stream.Number

/-! # The numbers that bytes spell

* `Spells value bytes`: all bytes but the last carry the continuation bit, and the groups of seven
  bits make up `value`. Leading groups may be zero, so a number has many spellings.
* `scan_eq_value_iff`: a scan finds a number exactly where the front of the bytes spells it.
* `spells_encode`: what is written for a number is a spelling of it.
* `length_encode_le`: no spelling is shorter.
-/

namespace BinaryXml.Number

set_option autoImplicit false

/-! ## Groups of seven bits -/

/-- The number that groups make up behind the groups of `value`. -/
def groupsFrom (value : Nat) (bytes : Bytes) : Nat :=
  bytes.foldl (fun value b => value * 128 + b.toNat % 128) value

/-- Bytes that spell a number. -/
def Spells (value : UInt32) (bytes : Bytes) : Prop :=
  ∃ groups last, bytes = groups ++ [last] ∧ (∀ b ∈ groups, 0x80 ≤ b) ∧ last < 0x80 ∧
    groupsFrom 0 bytes = value.toNat

@[simp] theorem groupsFrom_nil (value : Nat) : groupsFrom value [] = value := rfl

@[simp] theorem groupsFrom_cons (value : Nat) (b : UInt8) (bytes : Bytes) :
    groupsFrom value (b :: bytes) = groupsFrom (value * 128 + b.toNat % 128) bytes := rfl

theorem groupsFrom_append (value : Nat) (front back : Bytes) :
    groupsFrom value (front ++ back) = groupsFrom (groupsFrom value front) back :=
  List.foldl_append

theorem le_groupsFrom (value : Nat) (bytes : Bytes) : value ≤ groupsFrom value bytes := by
  induction bytes generalizing value with
  | nil => exact Nat.le_refl value
  | cons b bytes ih =>
    have h := ih (value * 128 + b.toNat % 128)
    rw [groupsFrom_cons]
    omega

/-! ## Reading -/

theorem scanFrom_groups (groups rest : Bytes) (last : UInt8) (value size : Nat)
    (hgroups : ∀ b ∈ groups, 0x80 ≤ b) (hlast : last < 0x80)
    (hbound : groupsFrom value (groups ++ [last]) < 0x100000000) :
    scanFrom value size (groups ++ last :: rest) =
      .value (UInt32.ofNat (groupsFrom value (groups ++ [last]))) (size + groups.length + 1)
        rest := by
  -- A group only makes the value larger, so the bound on the last one holds all the way.
  induction groups generalizing value size with
  | nil =>
    simp only [List.nil_append, groupsFrom_cons, groupsFrom_nil] at hbound ⊢
    have hv : ¬ 0x2000000 ≤ value := by omega
    simp [scanFrom, hv, hlast]
  | cons b groups ih =>
    have hb : ¬ b < 0x80 := UInt8.not_lt.mpr (hgroups b (by simp))
    simp only [List.cons_append, groupsFrom_cons] at hbound ⊢
    have hle := le_groupsFrom (value * 128 + b.toNat % 128) (groups ++ [last])
    have hv : ¬ 0x2000000 ≤ value := by omega
    have h := ih (value * 128 + b.toNat % 128) (size + 1) (fun c hc => hgroups c (by simp [hc]))
      hbound
    rw [scanFrom, if_neg hv]
    simp only [hb, if_false]
    rw [h, List.length_cons, show size + 1 + groups.length + 1 = size + (groups.length + 1) + 1 by
      omega]

theorem scanFrom_eq_value {bytes rest : Bytes} {value size count : Nat} {result : UInt32}
    (h : scanFrom value size bytes = .value result count rest) :
    ∃ groups last, bytes = groups ++ last :: rest ∧ (∀ b ∈ groups, 0x80 ≤ b) ∧ last < 0x80 ∧
      count = size + groups.length + 1 ∧
      groupsFrom value (groups ++ [last]) = result.toNat := by
  induction bytes generalizing value size with
  | nil => simp [scanFrom] at h
  | cons b bytes ih =>
    rw [scanFrom] at h
    split at h
    · cases h
    · rename_i hv
      split at h
      · rename_i hb
        simp only [Scan.value.injEq] at h
        obtain ⟨rfl, rfl, rfl⟩ := h
        refine ⟨[], b, rfl, by simp, hb, by simp, ?_⟩
        have hlt : value * 128 + b.toNat % 128 < 0x100000000 := by omega
        simpa using (Nat.mod_eq_of_lt hlt).symm
      · rename_i hb
        obtain ⟨groups, last, rfl, hgroups, hlast, hcount, hvalue⟩ := ih h
        refine ⟨b :: groups, last, rfl, ?_, hlast, ?_, hvalue⟩
        · intro c hc
          rcases List.mem_cons.mp hc with rfl | hc
          · exact UInt8.not_lt.mp hb
          · exact hgroups c hc
        · rw [hcount, List.length_cons]
          omega

theorem scan_append {value : UInt32} {bytes : Bytes} (h : Spells value bytes) (rest : Bytes) :
    scan (bytes ++ rest) = .value value bytes.length rest := by
  obtain ⟨groups, last, rfl, hgroups, hlast, hvalue⟩ := h
  have hbound : groupsFrom 0 (groups ++ [last]) < 0x100000000 := hvalue ▸ value.toNat_lt
  rw [List.append_assoc, List.singleton_append, scan,
    scanFrom_groups groups rest last 0 0 hgroups hlast hbound, hvalue]
  simp

theorem scan_eq_value_iff {bytes rest : Bytes} {value : UInt32} {size : Nat} :
    scan bytes = .value value size rest ↔
      ∃ front, Spells value front ∧ bytes = front ++ rest ∧ size = front.length := by
  constructor
  · intro h
    obtain ⟨groups, last, rfl, hgroups, hlast, hsize, hvalue⟩ := scanFrom_eq_value h
    exact ⟨groups ++ [last], ⟨groups, last, rfl, hgroups, hlast, hvalue⟩, by simp, by simp [hsize]⟩
  · rintro ⟨front, h, rfl, rfl⟩
    exact scan_append h rest

/-! ## Writing -/

theorem leading_groups (bound value : Nat) (h : value < Nat.pow 128 bound) :
    (∀ b ∈ leading value bound, 0x80 ≤ b) ∧ groupsFrom 0 (leading value bound) = value := by
  -- The last group is split off, as the other ones are those of the quotient.
  induction bound generalizing value with
  | zero =>
    have hv : value = 0 := Nat.lt_one_iff.mp h
    subst hv
    simp [leading]
  | succ bound ih =>
    rw [leading]
    split
    · rename_i hv
      subst hv
      simp
    · have hfewer : value / 128 < Nat.pow 128 bound :=
        (Nat.div_lt_iff_lt_mul (by decide)).mpr h
      obtain ⟨hcont, hvalue⟩ := ih (value / 128) hfewer
      have hbyte : (UInt8.ofNat (value % 128 + 128)).toNat = value % 128 + 128 := by
        rw [UInt8.toNat_ofNat']
        omega
      constructor
      · intro b hb
        rcases List.mem_append.mp hb with hb | hb
        · exact hcont b hb
        · obtain rfl := List.mem_singleton.mp hb
          rw [UInt8.le_iff_toNat_le, hbyte]
          exact Nat.le_add_left 128 _
      · rw [groupsFrom_append, hvalue, groupsFrom_cons, groupsFrom_nil, hbyte]
        omega

theorem spells_encode (value : UInt32) : Spells value (encode value) := by
  have hlt : value.toNat / 128 < 0x10000000 := by
    have := value.toNat_lt
    omega
  obtain ⟨hcont, hvalue⟩ := leading_groups 4 (value.toNat / 128) hlt
  have hlast : (UInt8.ofNat (value.toNat % 128)).toNat = value.toNat % 128 := by
    rw [UInt8.toNat_ofNat']
    omega
  refine ⟨leading (value.toNat / 128) 4, UInt8.ofNat (value.toNat % 128), rfl, hcont, ?_, ?_⟩
  · rw [UInt8.lt_iff_toNat_lt, hlast]
    exact Nat.mod_lt _ (by decide)
  · rw [encode, groupsFrom_append, hvalue, groupsFrom_cons, groupsFrom_nil, hlast]
    omega

/-! ## Lengths -/

theorem groupsFrom_lt (value : Nat) (bytes : Bytes) :
    groupsFrom value bytes < (value + 1) * 128 ^ bytes.length := by
  induction bytes generalizing value with
  | nil => simp
  | cons b bytes ih =>
    have hgroup : value * 128 + b.toNat % 128 + 1 ≤ (value + 1) * 128 := by omega
    calc groupsFrom value (b :: bytes)
        < (value * 128 + b.toNat % 128 + 1) * 128 ^ bytes.length := ih _
      _ ≤ (value + 1) * 128 * 128 ^ bytes.length := Nat.mul_le_mul_right _ hgroup
      _ = (value + 1) * 128 ^ (b :: bytes).length := by
        rw [List.length_cons, Nat.pow_succ', Nat.mul_assoc]

theorem length_leading_le {value count : Nat} (bound : Nat) (h : value < 128 ^ count) :
    (leading value bound).length ≤ count := by
  induction bound generalizing value count with
  | zero => exact Nat.zero_le count
  | succ bound ih =>
    rw [leading]
    split
    · exact Nat.zero_le count
    · rename_i hvalue
      cases count with
      | zero => omega
      | succ count =>
        have hfewer : value / 128 < 128 ^ count := by
          rw [Nat.div_lt_iff_lt_mul (by decide), ← Nat.pow_succ]
          exact h
        rw [List.length_append, List.length_singleton]
        exact Nat.succ_le_succ (ih hfewer)

theorem length_encode_le_of_lt {value : UInt32} {count : Nat}
    (h : value.toNat < 128 ^ (count + 1)) : (encode value).length ≤ count + 1 := by
  have hfewer : value.toNat / 128 < 128 ^ count := by
    rw [Nat.div_lt_iff_lt_mul (by decide), ← Nat.pow_succ]
    exact h
  rw [encode, List.length_append, List.length_singleton]
  exact Nat.succ_le_succ (length_leading_le 4 hfewer)

/-- What is written for a number has as few bytes as possible. -/
theorem length_encode_le {value : UInt32} {bytes : Bytes} (h : Spells value bytes) :
    (encode value).length ≤ bytes.length := by
  obtain ⟨groups, last, rfl, -, -, hvalue⟩ := h
  have hlt := groupsFrom_lt 0 (groups ++ [last])
  rw [hvalue, Nat.zero_add, Nat.one_mul, List.length_append, List.length_singleton] at hlt
  rw [List.length_append, List.length_singleton]
  exact length_encode_le_of_lt hlt

theorem length_encode_le_five (value : UInt32) : (encode value).length ≤ 5 :=
  length_encode_le_of_lt (Nat.lt_of_lt_of_le value.toNat_lt (by decide))

theorem length_pos_of_spells {value : UInt32} {bytes : Bytes} (h : Spells value bytes) :
    0 < bytes.length := by
  obtain ⟨groups, last, rfl, -⟩ := h
  simp

end BinaryXml.Number
