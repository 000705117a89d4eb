import BinaryXml.Xml.Markup

/-!
# Attributes of a tag

What follows the name of a start tag, as pairs of a key and a value.

* `AttributeList.scan` takes the pairs off, up to the first place that breaks the grammar.
-/

namespace BinaryXml

set_option autoImplicit false

/-- A key and a value as they stand in a tag. -/
structure RawAttribute where
  key : Bytes
  value : Bytes
deriving Repr, DecidableEq

/-- The attributes of a tag, and whether they go up to its end. -/
structure AttributeList where
  items : List RawAttribute
  complete : Bool
deriving Repr, DecidableEq

namespace AttributeList

open Markup (isSpace isQuote cut)

/-- Whether a byte may continue a key. The first byte of a key may be any that is no space. -/
def isKey (b : UInt8) : Bool :=
  b != 0x3D && !isSpace b

/-- The value at the start of a text, and what follows it. -/
def quotedValue : Bytes → Option (Bytes × Bytes)
  | [] => none
  | quote :: rest => if isQuote quote then cut [quote] rest else none

/-- The attribute at the start of a text, given apart its first byte, and what follows it. -/
def one (first : UInt8) (rest : Bytes) : Option (RawAttribute × Bytes) :=
  let key := first :: rest.takeWhile isKey
  match (rest.dropWhile isKey).dropWhile isSpace with
  | 0x3D :: rest =>
    (quotedValue (rest.dropWhile isSpace)).map fun (value, rest) => (⟨key, value⟩, rest)
  | _ => none

/-- The attributes at the start of a text. The first argument bounds their number; the length of
the text is enough. -/
def scanFrom : Nat → Bytes → AttributeList
  | 0, _ => ⟨[], true⟩
  | bound + 1, text =>
    match text.dropWhile isSpace with
    | [] => ⟨[], true⟩
    | first :: rest =>
      match one first rest with
      | none => ⟨[], false⟩
      | some (item, rest) =>
        let others := scanFrom bound rest
        ⟨item :: others.items, others.complete⟩

/-- The attributes of a tag, from what follows its name. -/
def scan (text : Bytes) : AttributeList :=
  scanFrom text.length text

end AttributeList

end BinaryXml
