import BinaryXml.Stream.Frame

/-!
# String tables

Strings that a stream refers to by their place in a table, each ended by a zero byte.

* `StringTable.get` finds the string at an offset of a table that was read.
* `TableBuilder.intern` gives a string its offset in a table that is being made.
-/

namespace BinaryXml

set_option autoImplicit false

/-! ## Reading -/

/-- The table of a stream. -/
structure StringTable where
  data : Bytes
deriving Repr, DecidableEq

/-- The bytes from an offset up to the next zero byte. -/
def StringTable.get (table : StringTable) (offset : UInt32) : Except Error Bytes :=
  let rest := table.data.drop offset.toNat
  let text := rest.takeWhile (· != 0)
  if text.length < rest.length then .ok text else .error (.tableOffset offset)

/-! ## Building -/

/-- The strings of a table, in the order in which they were first used. -/
structure TableBuilder where
  entries : List String := []
deriving Repr, DecidableEq

namespace TableBuilder

def bytes (table : TableBuilder) : Bytes :=
  table.entries.flatMap Frame.terminated

def contains (table : TableBuilder) (entry : String) : Bool :=
  table.entries.contains entry

/-- The offset of a string among entries of which the first is at `offset`. -/
def offsetFrom? (entry : String) (offset : Nat) : List String → Option Nat
  | [] => none
  | first :: rest =>
    if first = entry then some offset
    else offsetFrom? entry (offset + (Frame.terminated first).length) rest

def offset? (table : TableBuilder) (entry : String) : Option Nat :=
  offsetFrom? entry 0 table.entries

/-- The number of bytes that offsets can reach. -/
def limit : Nat := 0x100000000

/-- The offset of a string, which joins the table on its first use. -/
def intern (entry : String) : EStateM Error TableBuilder UInt32 := fun table =>
  match table.offset? entry with
  | some offset => .ok (UInt32.ofNat offset) table
  | none =>
    if entry.toList.contains '\x00' then .error (.encoding (.nulInTable entry)) table
    else if table.bytes.length < limit then
      .ok (UInt32.ofNat table.bytes.length) ⟨table.entries ++ [entry]⟩
    else .error (.encoding .tableFull) table

end TableBuilder

end BinaryXml
