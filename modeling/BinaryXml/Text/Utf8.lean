/-!
# UTF-8

Characters as sequences of one to four bytes.

* `encode` writes a string as bytes.
* `decode` reads bytes as a string, or reports the first place where they are not UTF-8.
* `lossy` reads any bytes, with U+FFFD for each malformed part.
-/

namespace BinaryXml

set_option autoImplicit false

abbrev Bytes := List UInt8

namespace Utf8

/-! ## Writing -/

def encodeChars (chars : List Char) : Bytes :=
  chars.flatMap String.utf8EncodeChar

def encode (text : String) : Bytes :=
  encodeChars text.toList

/-! ## Reading -/

/-- The first place where bytes are not UTF-8, with the number of valid bytes before it. -/
inductive Fault where
  /-- A sequence that no continuation makes valid; `length` bytes of it start some valid one. -/
  | malformed (length index : Nat)
  /-- The bytes end inside a sequence that is valid so far. -/
  | incomplete (index : Nat)
deriving Repr, DecidableEq

def Fault.message : Fault → String
  | .malformed length index =>
    "invalid utf-8 sequence of " ++ toString length ++ " bytes from index " ++ toString index
  | .incomplete index => "incomplete utf-8 byte sequence from index " ++ toString index

/-- A sequence that has been begun: the bits read so far, the range of the next byte, the number
of bytes that follow that one, and the number of bytes read. -/
structure Partial where
  bits : Nat
  low : UInt8
  high : UInt8
  after : Nat
  read : Nat

/-- What one byte does to a reader. -/
inductive Step where
  /-- The byte completes a character. -/
  | char (c : Char)
  /-- More bytes must follow. -/
  | more (state : Partial)
  /-- The byte cannot stand here. -/
  | reject

/-- The first byte of a sequence. The range of the second byte leaves out overlong forms,
surrogates and values above U+10FFFF. -/
def first (b : UInt8) : Step :=
  if b < 0x80 then .char (Char.ofNat b.toNat)
  else if b < 0xC2 then .reject
  else if b < 0xE0 then .more ⟨b.toNat - 0xC0, 0x80, 0xBF, 0, 1⟩
  else if b < 0xF0 then
    .more ⟨b.toNat - 0xE0, if b = 0xE0 then 0xA0 else 0x80, if b = 0xED then 0x9F else 0xBF, 1, 1⟩
  else if b < 0xF5 then
    .more ⟨b.toNat - 0xF0, if b = 0xF0 then 0x90 else 0x80, if b = 0xF4 then 0x8F else 0xBF, 2, 1⟩
  else .reject

/-- A later byte of a sequence. -/
def Partial.next (state : Partial) (b : UInt8) : Step :=
  if state.low ≤ b ∧ b ≤ state.high then
    let bits := state.bits * 64 + (b.toNat - 0x80)
    match state.after with
    | 0 => .char (Char.ofNat bits)
    | after + 1 => .more ⟨bits, 0x80, 0xBF, after, state.read + 1⟩
  else .reject

/-- Reads the rest of some bytes, `index` valid bytes after their start and, where `state` is
given, inside a sequence that starts there. -/
def decodeFrom (index : Nat) : Option Partial → Bytes → Except Fault (List Char)
  | none, [] => .ok []
  | some _, [] => .error (.incomplete index)
  | none, b :: rest =>
    match first b with
    | .char c => (c :: ·) <$> decodeFrom (index + 1) none rest
    | .more state => decodeFrom index (some state) rest
    | .reject => .error (.malformed 1 index)
  | some state, b :: rest =>
    match state.next b with
    | .char c => (c :: ·) <$> decodeFrom (index + state.read + 1) none rest
    | .more state => decodeFrom index (some state) rest
    | .reject => .error (.malformed state.read index)

def decodeChars (bytes : Bytes) : Except Fault (List Char) :=
  decodeFrom 0 none bytes

def decode (bytes : Bytes) : Except Fault String :=
  String.ofList <$> decodeChars bytes

/-- The character that stands for a malformed part. -/
def replacement : Char := '\ufffd'

/-- Reads the rest of some bytes and replaces each malformed part. A byte that breaks a sequence
is read again as the first of the next one. -/
def lossyFrom : Option Partial → Bytes → List Char
  | none, [] => []
  | some _, [] => [replacement]
  | state?, b :: rest =>
    let start (before : List Char) : List Char :=
      match first b with
      | .char c => before ++ c :: lossyFrom none rest
      | .more state => before ++ lossyFrom (some state) rest
      | .reject => before ++ replacement :: lossyFrom none rest
    match state? with
    | none => start []
    | some state =>
      match state.next b with
      | .char c => c :: lossyFrom none rest
      | .more state => lossyFrom (some state) rest
      | .reject => start [replacement]

/-- The text of any bytes: what is UTF-8 is kept, and U+FFFD stands for each malformed part. -/
def lossy (bytes : Bytes) : String :=
  String.ofList (lossyFrom none bytes)

end Utf8

end BinaryXml
