import BinaryXml.Stream.Code
import BinaryXml.Stream.Frame

/-!
# Tokens

What an encoder writes behind the header.

* `Token` is a token with its operand.
* `Token.bytes` are the bytes of a token.
-/

namespace BinaryXml

set_option autoImplicit false

/-- The name behind a literal token: spelt out, or by its offset in the string table. -/
inductive LiteralName where
  | inline (name : String)
  | indexed (offset : UInt32)
deriving Repr, DecidableEq

/-- A token with its operand. -/
inductive Token where
  | switchPage (page : UInt8)
  | finish
  /-- A tag, an attribute start or an attribute value of the current page. -/
  | code (token : UInt8)
  | literal (token : UInt8) (name : LiteralName)
  | inlineString (text : String)
  | tableString (offset : UInt32)
  | opaqueData (data : Bytes)
deriving Repr, DecidableEq

def LiteralName.bytes : LiteralName → Bytes
  | .inline name => Frame.terminated name
  | .indexed offset => Number.encode offset

/-- The bytes of a token. The encoder makes no string token of a text with a zero byte and no
opaque token that is too long to be counted. -/
def Token.bytes : Token → Bytes
  | .switchPage page => [Code.switchPage, page]
  | .finish => [Code.finish]
  | .code token => [token]
  | .literal token name => token :: name.bytes
  | .inlineString text => Code.inlineString :: Frame.terminated text
  | .tableString offset => Code.tableString :: Number.encode offset
  | .opaqueData data => Code.opaqueData :: Frame.counted data

end BinaryXml
