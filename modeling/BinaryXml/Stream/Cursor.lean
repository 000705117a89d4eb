import BinaryXml.Error
import BinaryXml.Stream.Number

/-!
# Reading bytes

A cursor stands inside a byte string, and a reader moves it.

* `Cursor` is a place, with the bytes from there on.
* `Reader.byte`, `Reader.number`, `Reader.string`, `Reader.bytes` and `Reader.counted` read one
  thing each. A reader that fails says where it leaves the cursor.
-/

namespace BinaryXml

set_option autoImplicit false

/-- A place in a byte string: the number of bytes before it, and the bytes after it. -/
structure Cursor where
  offset : Nat
  rest : Bytes
deriving Repr, DecidableEq

namespace Cursor

/-- The start of a byte string. -/
def ofBytes (bytes : Bytes) : Cursor :=
  ⟨0, bytes⟩

/-- The next byte, which stays where it is. -/
def peek? (cursor : Cursor) : Option UInt8 :=
  cursor.rest.head?

/-- Whether no byte is left. -/
def atEnd (cursor : Cursor) : Bool :=
  cursor.rest.isEmpty

end Cursor

/-- A computation that moves a cursor and may fail. -/
abbrev Reader (α : Type) := EStateM Error Cursor α

namespace Reader

def byte : Reader UInt8 := fun cursor =>
  match cursor.rest with
  | [] => .error (.truncated cursor.offset .byte) cursor
  | b :: rest => .ok b ⟨cursor.offset + 1, rest⟩

/-- Reads a number. The cursor returns to the start of a number that the bytes end in, and stays
inside one that is too large. -/
def number : Reader UInt32 := fun cursor =>
  match Number.scan cursor.rest with
  | .value value size rest => .ok value ⟨cursor.offset + size, rest⟩
  | .overflow size rest =>
    .error (.decoding (.numberOverflow cursor.offset)) ⟨cursor.offset + size, rest⟩
  | .truncated => .error (.truncated cursor.offset .number) cursor

/-- Reads bytes up to a zero byte, which is not part of them. -/
def string : Reader Bytes := fun cursor =>
  let text := cursor.rest.takeWhile (· != 0)
  match cursor.rest.drop text.length with
  | [] => .error (.unterminated cursor.offset) cursor
  | _ :: rest => .ok text ⟨cursor.offset + text.length + 1, rest⟩

def bytes (count : Nat) : Reader Bytes := fun cursor =>
  if count ≤ cursor.rest.length then
    .ok (cursor.rest.take count) ⟨cursor.offset + count, cursor.rest.drop count⟩
  else .error (.truncated cursor.offset .bytes) cursor

def counted : Reader Bytes := do
  bytes (← number).toNat

end Reader

end BinaryXml
