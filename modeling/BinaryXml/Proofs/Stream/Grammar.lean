import BinaryXml.Proofs.Stream.Number
import BinaryXml.Stream.Decoding

/-! # The grammar of streams

Which bytes are a stream, and the document that each derivation stands for. Nothing here reads: a
production relates whole byte strings to what they denote.

* `Operand` and `LiteralName` are the ways in which characters and names are carried.
* `AttributeName`, `ValuePieces` and `AttributeList` are the lists of attributes, over the page of
  attributes.
* `Head` is the front of an element, up to its content; `Content` is what stands between a head and
  the end of its element, over both pages. An element has content if its tag says so, and the pieces
  of the content make up its `Children`.
* `HeaderForm`, `Body` and `Stream` put a whole stream together.
-/

namespace BinaryXml

set_option autoImplicit false

/-- The byte that announces characters in some way. -/
def StringToken.code : StringToken → UInt8
  | .inline => Code.inlineString
  | .table => Code.tableString
  | .entity => Code.entity
  | .data => Code.opaqueData

namespace Grammar

open Decoding (Context)

/-! ## Frames -/

/-- The current code pages of tags and of attributes. -/
@[ext] structure Pages where
  tags : UInt8
  attributes : UInt8

/-- A string up to and with the zero byte that ends it. -/
def Terminated (raw bytes : Bytes) : Prop :=
  bytes = raw ++ [0] ∧ 0 ∉ raw

/-- Data behind the number of its bytes. -/
def Counted (data bytes : Bytes) : Prop :=
  ∃ size front, Number.Spells size front ∧ size.toNat = data.length ∧ bytes = front ++ data

/-- A table has a string at some offset, ended by a zero byte. -/
def Holds (table : Bytes) (offset : UInt32) (raw : Bytes) : Prop :=
  ∃ before after, table = before ++ (raw ++ 0 :: after) ∧ before.length = offset.toNat ∧ 0 ∉ raw

/-! ## Strings -/

/-- What stands behind a string token, and the text that it is. -/
inductive Operand (context : Context) : StringToken → Bytes → String → Prop
  | inline {raw bytes : Bytes} {text : String} (frame : Terminated raw bytes)
      (decoded : context.charset.decode raw = .ok text) : Operand context .inline bytes text
  | table {offset : UInt32} {raw bytes : Bytes} {text : String}
      (number : Number.Spells offset bytes) (held : Holds context.table.data offset raw)
      (decoded : context.charset.decode raw = .ok text) : Operand context .table bytes text
  | entity {code : UInt32} {bytes : Bytes} {c : Char} (number : Number.Spells code bytes)
      (char : c.toNat = code.toNat) : Operand context .entity bytes (String.singleton c)
  | data {data bytes : Bytes} (frame : Counted data bytes) :
      Operand context .data bytes (context.opaqueEncoding.encode data)

/-- The name behind a literal token: spelt out without a string table, else by its offset. -/
def LiteralName (context : Context) (bytes : Bytes) (name : String) : Prop :=
  if context.table.data = [] then Operand context .inline bytes name
  else Operand context .table bytes name

/-! ## Attributes -/

/-- The token of an attribute's name, its operand, and the name with the front of the value. -/
inductive AttributeName (context : Context) (page : UInt8) :
    UInt8 → Bytes → String → String → Prop
  | literal {bytes : Bytes} {name : String} (literal : LiteralName context bytes name) :
      AttributeName context page Code.literal bytes name ""
  | registered {token : UInt8} {entry : AttributeStart}
      (base : Code.firstOfPage ≤ Code.base token) (low : token < 0x80)
      (found : context.language.attributeStartAt? page token = some entry) :
      AttributeName context page token [] entry.name entry.valueStart

/-- Pieces of an attribute's value, from one page of attributes to another. -/
inductive ValuePieces (context : Context) : UInt8 → Bytes → String → UInt8 → Prop
  | nothing {page : UInt8} : ValuePieces context page [] "" page
  | switchPage {old new last : UInt8} {bytes : Bytes} {value : String}
      (rest : ValuePieces context new bytes value last) :
      ValuePieces context old (Code.switchPage :: new :: bytes) value last
  | string {page last : UInt8} {kind : StringToken} {operand bytes : Bytes} {text value : String}
      (first : Operand context kind operand text)
      (rest : ValuePieces context page bytes value last) :
      ValuePieces context page (kind.code :: (operand ++ bytes)) (text ++ value) last
  | registered {page last token : UInt8} {entry : AttributeValue} {bytes : Bytes} {value : String}
      (base : Code.firstOfPage ≤ Code.base token) (high : 0x80 ≤ token)
      (found : context.language.attributeValueAt? page token = some entry)
      (rest : ValuePieces context page bytes value last) :
      ValuePieces context page (token :: bytes) (entry.value ++ value) last

/-- Attributes up to the end of their list. Each has a name before it has a value. -/
inductive AttributeList (context : Context) : UInt8 → Bytes → List Attribute → UInt8 → Prop
  | finish {page : UInt8} : AttributeList context page [Code.finish] [] page
  | switchPage {old new last : UInt8} {bytes : Bytes} {list : List Attribute}
      (rest : AttributeList context new bytes list last) :
      AttributeList context old (Code.switchPage :: new :: bytes) list last
  | item {page next last token : UInt8} {operand bytes others : Bytes}
      {name front value : String} {list : List Attribute}
      (start : AttributeName context page token operand name front)
      (pieces : ValuePieces context page bytes value next)
      (rest : AttributeList context next others list last) :
      AttributeList context page (token :: (operand ++ (bytes ++ others)))
        (⟨name, front ++ value⟩ :: list) last

/-! ## Elements -/

/-- The operand of a tag, and the name with the namespace that the tag stands for. -/
inductive TagName (context : Context) (page token : UInt8) : Bytes → String → Option String → Prop
  | literal {bytes : Bytes} {name : String} (base : Code.base token = Code.literal)
      (literal : LiteralName context bytes name) : TagName context page token bytes name none
  | registered {name : String} (base : Code.firstOfPage ≤ Code.base token)
      (found : context.language.tagName? page (Code.base token) = some name) :
      TagName context page token [] name (context.language.uri? page)

/-- The attribute list of a tag, which is there if the tag says so. -/
inductive Attributes (context : Context) (page token : UInt8) :
    Bytes → List Attribute → UInt8 → Prop
  | absent (flag : token &&& Code.hasAttributes = 0) : Attributes context page token [] [] page
  | present {bytes : Bytes} {list : List Attribute} {last : UInt8}
      (flag : token &&& Code.hasAttributes ≠ 0)
      (items : AttributeList context page bytes list last) :
      Attributes context page token bytes list last

/-- What follows the token of an element up to its content, with the element that this begins. -/
inductive Head (context : Context) (depth : Nat) :
    Pages → UInt8 → Bytes → Element → Pages → Prop
  | mk {pages : Pages} {token last : UInt8} {front back : Bytes} {name : String}
      {uri : Option String} {list : List Attribute} (deep : depth ≤ context.maxDepth)
      (tag : TagName context pages.tags token front name uri)
      (attributes : Attributes context pages.attributes token back list last) :
      Head context depth pages token (front ++ back) ⟨name, uri, list, []⟩ ⟨pages.tags, last⟩

/-- The children that pieces make up. Texts that follow each other are one text, of which the white
space policy says what is left; other nodes stay as they are. -/
inductive Children (whitespace : Whitespace) : List Node → List Node → Prop
  | nil : Children whitespace [] []
  | node {node : Node} {pieces children : List Node} (notText : ∀ text, node ≠ .text text)
      (rest : Children whitespace pieces children) :
      Children whitespace (node :: pieces) (node :: children)
  | texts {run : List String} {pieces children : List Node} (nonempty : run ≠ [])
      (whole : ∀ text, pieces.head? ≠ some (.text text))
      (rest : Children whitespace pieces children) :
      Children whitespace (run.map .text ++ pieces)
        ((whitespace.apply (String.join run)).toList.map .text ++ children)

/-- The content of an element at some depth, with its pieces in order: texts, and the elements one
level deeper. -/
inductive Content (context : Context) : Nat → Pages → Bytes → List Node → Pages → Prop
  | finish {depth : Nat} {pages : Pages} : Content context depth pages [Code.finish] [] pages
  | switchPage {depth : Nat} {pages last : Pages} {page : UInt8} {bytes : Bytes}
      {pieces : List Node} (rest : Content context depth ⟨page, pages.attributes⟩ bytes pieces last) :
      Content context depth pages (Code.switchPage :: page :: bytes) pieces last
  | string {depth : Nat} {pages last : Pages} {kind : StringToken} {operand bytes : Bytes}
      {text : String} {pieces : List Node} (first : Operand context kind operand text)
      (rest : Content context depth pages bytes pieces last) :
      Content context depth pages (kind.code :: (operand ++ bytes)) (.text text :: pieces) last
  | empty {depth : Nat} {pages next last : Pages} {token : UInt8} {front bytes : Bytes}
      {head : Element} {pieces : List Node} (start : Head context (depth + 1) pages token front head next)
      (flag : token &&& Code.hasContent = 0) (rest : Content context depth next bytes pieces last) :
      Content context depth pages (token :: (front ++ bytes))
        (.element head :: pieces) last
  | nested {depth : Nat} {pages next inside last : Pages} {token : UInt8}
      {front inner bytes : Bytes} {head : Element} {parts children pieces : List Node}
      (start : Head context (depth + 1) pages token front head next)
      (flag : token &&& Code.hasContent ≠ 0)
      (content : Content context (depth + 1) next inner parts inside)
      (made : Children context.whitespace parts children)
      (rest : Content context depth inside bytes pieces last) :
      Content context depth pages (token :: (front ++ (inner ++ bytes)))
        (.element { head with children } :: pieces) last

/-- An element at some depth, from its token to the end of its content. -/
inductive IsElement (context : Context) (depth : Nat) : Pages → Bytes → Element → Pages → Prop
  | empty {pages last : Pages} {token : UInt8} {front : Bytes} {head : Element}
      (start : Head context depth pages token front head last)
      (flag : token &&& Code.hasContent = 0) :
      IsElement context depth pages (token :: front) head last
  | nested {pages next last : Pages} {token : UInt8} {front inner : Bytes} {head : Element}
      {parts children : List Node} (start : Head context depth pages token front head next)
      (flag : token &&& Code.hasContent ≠ 0) (content : Content context depth next inner parts last)
      (made : Children context.whitespace parts children) :
      IsElement context depth pages (token :: (front ++ inner)) { head with children } last

/-! ## Streams -/

/-- The identifier of a language. -/
inductive PublicIdForm : PublicId → Bytes → Prop
  | number {value : UInt32} {bytes : Bytes} (number : Number.Spells value bytes)
      (notMark : value ≠ PublicId.indexMark) : PublicIdForm (.number value) bytes
  | indexed {offset : UInt32} {front back : Bytes} (mark : Number.Spells PublicId.indexMark front)
      (number : Number.Spells offset back) : PublicIdForm (.indexed offset) (front ++ back)

/-- The number of a character set. An unknown one is taken for UTF-8. -/
inductive CharsetForm : Charset → Bytes → Prop
  | unknown {bytes : Bytes} (number : Number.Spells Charset.unknownMib bytes) :
      CharsetForm .utf8 bytes
  | registered {charset : Charset} {bytes : Bytes} (number : Number.Spells charset.mib bytes) :
      CharsetForm charset bytes

/-- A header: version, identifier, character set and string table. An identifier by its offset
names a string of the table. -/
inductive HeaderForm : Header → Bytes → Prop
  | mk {header : Header} {id charset table : Bytes} (version : header.version ≤ newestVersion)
      (identified : PublicIdForm header.publicId id) (encoded : CharsetForm header.charset charset)
      (counted : Counted header.table.data table)
      (named : ∀ offset, header.publicId = .indexed offset →
        ∃ raw, Holds header.table.data offset raw) :
      HeaderForm header (header.version :: (id ++ (charset ++ table)))

/-- What follows the header: changes of the page of tags, and then one element. -/
inductive Body (context : Context) : UInt8 → Bytes → Element → Prop
  | switchPage {old new : UInt8} {bytes : Bytes} {root : Element} (rest : Body context new bytes root) :
      Body context old (Code.switchPage :: new :: bytes) root
  | root {page : UInt8} {bytes : Bytes} {root : Element} {last : Pages}
      (element : IsElement context 1 ⟨page, 0⟩ bytes root last) : Body context page bytes root

/-- A stream and the document that it denotes. -/
inductive Stream (options : DecodeOptions) : Bytes → Document → Prop
  | mk {header : Header} {front back : Bytes} {root : Element} (start : HeaderForm header front)
      (body : Body (Context.of options header) 0 back root) : Stream options (front ++ back) ⟨root⟩

end Grammar

end BinaryXml
