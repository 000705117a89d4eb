/-!
# Token codes

The bytes that stand for markup. Some have one meaning everywhere; the others are tags, attribute
starts and attribute values of the current code page.

* `Code` names the bytes with one meaning and the bits of a tag.
* `ContentToken` and `AttributeToken` sort the bytes by what they begin inside an element's content
  and inside its attribute list.
-/

namespace BinaryXml

set_option autoImplicit false

/-! ## Meanings that hold everywhere -/

namespace Code

/-- Announces the number of another code page. -/
def switchPage : UInt8 := 0x00

/-- Ends an attribute list or a content. -/
def finish : UInt8 := 0x01

/-- A character by its number. -/
def entity : UInt8 := 0x02

/-- A string that follows at once. -/
def inlineString : UInt8 := 0x03

/-- A name that has no token. -/
def literal : UInt8 := 0x04

/-- A processing instruction. -/
def instruction : UInt8 := 0x43

/-- A string of the table. -/
def tableString : UInt8 := 0x83

/-- Raw bytes. -/
def opaqueData : UInt8 := 0xC3

/-- The bit of a tag that says that attributes follow. -/
def hasAttributes : UInt8 := 0x80

/-- The bit of a tag that says that content follows. -/
def hasContent : UInt8 := 0x40

/-- A tag without its two flags. -/
def base (token : UInt8) : UInt8 :=
  token &&& 0x3F

/-- The lowest token that a code page may assign. -/
def firstOfPage : UInt8 := 0x05

/-- Whether a byte is one of the nine extension tokens. -/
def isExtension (token : UInt8) : Bool :=
  0x40 ≤ token && base token < 0x03

end Code

/-! ## Meanings by place -/

/-- The ways in which a stream carries characters. -/
inductive StringToken where
  | inline
  | table
  | entity
  | data
deriving Repr, DecidableEq

/-- The way that a byte announces, if it announces characters. -/
def StringToken.ofByte? (token : UInt8) : Option StringToken :=
  if token = Code.inlineString then some .inline
  else if token = Code.tableString then some .table
  else if token = Code.entity then some .entity
  else if token = Code.opaqueData then some .data
  else none

/-- What a byte begins inside the content of an element. -/
inductive ContentToken where
  | finish
  | switchPage
  | string (token : StringToken)
  /-- An extension or a processing instruction, which no document has. -/
  | reserved
  | tag
deriving Repr, DecidableEq

/-- What a byte begins inside the content of an element. -/
def ContentToken.ofByte (token : UInt8) : ContentToken :=
  if token = Code.finish then .finish
  else if token = Code.switchPage then .switchPage
  else match StringToken.ofByte? token with
    | some kind => .string kind
    | none => if token = Code.instruction ∨ Code.isExtension token then .reserved else .tag

/-- What a byte begins inside an attribute list. -/
inductive AttributeToken where
  | finish
  | switchPage
  | literal
  | string (token : StringToken)
  /-- A literal with a tag's flags, an extension or a processing instruction. -/
  | reserved
  | start
  | value
deriving Repr, DecidableEq

/-- What a byte begins inside an attribute list. -/
def AttributeToken.ofByte (token : UInt8) : AttributeToken :=
  if token = Code.finish then .finish
  else if token = Code.switchPage then .switchPage
  else if token = Code.literal then .literal
  else match StringToken.ofByte? token with
    | some kind => .string kind
    | none =>
      if token = Code.instruction ∨ Code.isExtension token ∨ Code.base token = Code.literal then
        .reserved
      else if token < 0x80 then .start
      else .value

end BinaryXml
