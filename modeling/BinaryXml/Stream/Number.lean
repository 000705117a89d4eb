import BinaryXml.Text.Utf8

/-!
# Multi-byte numbers

A number of 32 bits is written in groups of seven bits, the most significant first. All bytes but
the last carry the continuation bit.

* `encode` writes a number in as few bytes as possible.
* `scan` reads one from the front of some bytes.
-/

namespace BinaryXml.Number

set_option autoImplicit false

/-! ## Writing -/

/-- The bytes of the groups before the last, given the number without its last seven bits. The
second argument bounds the number of groups. -/
def leading (value : Nat) : Nat → Bytes
  | 0 => []
  | bound + 1 =>
    if value = 0 then []
    else leading (value / 128) bound ++ [UInt8.ofNat (value % 128 + 128)]

/-- The bytes of a number. Five groups hold 32 bits. -/
def encode (value : UInt32) : Bytes :=
  leading (value.toNat / 128) 4 ++ [UInt8.ofNat (value.toNat % 128)]

/-! ## Reading -/

/-- What the front of some bytes says about a number. -/
inductive Scan where
  /-- A number, with the count of its bytes and with what follows them. -/
  | value (value : UInt32) (size : Nat) (rest : Bytes)
  /-- More than 32 bits, found before the next byte. -/
  | overflow (size : Nat) (rest : Bytes)
  /-- The bytes end inside the number. -/
  | truncated
deriving Repr, DecidableEq

/-- Reads on after `size` bytes that carry the continuation bit and make up `value`. -/
def scanFrom (value size : Nat) : Bytes → Scan
  | [] => .truncated
  | b :: rest =>
    if 0x2000000 ≤ value then .overflow size (b :: rest)
    else
      let value := value * 128 + b.toNat % 128
      if b < 0x80 then .value (UInt32.ofNat value) (size + 1) rest
      else scanFrom value (size + 1) rest

/-- Reads a number from the front of some bytes. -/
def scan (bytes : Bytes) : Scan :=
  scanFrom 0 0 bytes

end BinaryXml.Number
