import BinaryXml.Event
import BinaryXml.Stream.Cursor
import BinaryXml.Stream.StringTable

/-!
# Headers

A stream begins with its version, the identifier of its language, its character set and its string
table.

* `Header.read` reads a header and `Header.bytes` writes one.
* `Header.warnings` compares its identifier with the language in which the stream is read.
-/

namespace BinaryXml

set_option autoImplicit false

/-- The identifier of a language: a registered number, which is not zero, or the offset of a name
in the string table. -/
inductive PublicId where
  | number (value : UInt32)
  | indexed (offset : UInt32)
deriving Repr, DecidableEq

/-- The number that stands for no language in particular. -/
def PublicId.unknown : UInt32 := 1

/-- The number before the offset of a name. -/
def PublicId.indexMark : UInt32 := 0

/-- The number for a character set that is not known. -/
def Charset.unknownMib : UInt32 := 0

/-- What comes before the document. -/
structure Header where
  version : UInt8
  publicId : PublicId
  charset : Charset
  table : StringTable

namespace PublicId

def bytes : PublicId → Bytes
  | .number value => Number.encode value
  | .indexed offset => Number.encode indexMark ++ Number.encode offset

def read : Reader PublicId := do
  let value ← Reader.number
  if value = indexMark then
    let offset ← Reader.number
    pure (.indexed offset)
  else pure (.number value)

end PublicId

/-- Reads a character set; an unknown one is taken for UTF-8. -/
def Charset.read : Reader Charset := do
  let mib ← Reader.number
  if mib = Charset.unknownMib then pure .utf8
  else match Charset.ofMib? mib with
    | some charset => pure charset
    | none => throw (.decoding (.unknownCharset mib))

namespace Header

def read : Reader Header := do
  let version ← Reader.byte
  if newestVersion < version then throw (.unsupportedVersion version)
  let publicId ← PublicId.read
  let charset ← Charset.read
  let table ← Reader.counted
  pure ⟨version, publicId, charset, ⟨table⟩⟩

def bytes (header : Header) : Except Error Bytes := do
  let table ← Frame.counted? header.table.data
  pure (header.version :: header.publicId.bytes ++ Number.encode header.charset.mib ++ table)

/-- The reports on a header for a stream that is read in some language. There is one if the header
names another language. -/
def warnings (header : Header) (language : Language) : Except Error (List Event) :=
  match header.publicId with
  | .indexed offset => do
    let fpi ← header.table.get offset
    if fpi = Utf8.encode language.fpi then pure []
    else pure [.foreignIdentifier (.text (Utf8.lossy fpi)) language.name]
  | .number value =>
    if value = PublicId.unknown ∨ language.publicId = some value then .ok []
    else .ok [.foreignIdentifier (.number value) language.name]

end Header

end BinaryXml
