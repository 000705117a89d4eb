import BinaryXml.Text.Charset
import BinaryXml.Text.Quoted
import BinaryXml.Text.Utf8

/-!
# Errors

Why a conversion can fail.

* `Error` has one constructor for each kind of failure, with the cause inside.
* `Error.message` says what happened, `Error.kind` sorts it into one of twelve kinds.
* `ErrorKind.code` numbers the kinds and `ErrorKind.describe` says what each means.
-/

namespace BinaryXml

set_option autoImplicit false

/-! ## Causes -/

/-- What a stream should have gone on with where it ended. -/
inductive Wanted where
  | byte
  | number
  | bytes
deriving Repr, DecidableEq

/-- Where a token without a meaning stands. -/
inductive TokenRole where
  | tag
  | content
  | attribute
  | attributeStart
  | attributeValue
deriving Repr, DecidableEq

/-- Why a text is not an XML document. -/
inductive XmlFault where
  /-- The text breaks the grammar of markup. -/
  | grammar
  | unknownPrefix (name : String)
  | lateDoctype
  | secondRoot
  | unclosed (name : String)
  | noRoot
  | strayText
  | unknownEntity (name : String)
deriving Repr, DecidableEq

/-- What XML may hold and a stream may not. -/
inductive Construct where
  | instruction (target : String)
  | doctype (root language : String)
deriving Repr, DecidableEq

/-- Why something cannot be written to a stream. -/
inductive EncodingFault where
  | nulInString (position : Nat)
  | nulInTable (entry : String)
  | tooLong (length : Nat)
  | tableFull
deriving Repr, DecidableEq

/-- Why a stream has no document, or a document no XML text. -/
inductive DecodingFault where
  | numberOverflow (offset : Nat)
  | unknownCharset (mib : UInt32)
  | trailingData (offset : Nat)
  | valueWithoutName
  | entity (code : UInt32)
  | notAscii (text : String)
  | notUtf8 (fault : Utf8.Fault)
  | unwritableName (name : String) (charset : Charset)
  | notLatin1 (c : Char)
deriving Repr, DecidableEq

/-- Why a command line cannot be run. -/
inductive UsageFault where
  | noSubcommand
  | noInput
  | inPlaceStdin
deriving Repr, DecidableEq

/-- Why a file can be neither read nor written. -/
inductive FileFault where
  /-- The file, or the directory for it, does not exist. -/
  | notFound
  /-- A file stands where the path needs a directory. -/
  | notDirectory
  /-- A directory stands where a file is needed. -/
  | isDirectory
  /-- The path holds a NUL, which ends a name for the system. -/
  | nulInName
  | nameTooLong
  /-- Another reason, in the words of the system. -/
  | other (detail : String)
deriving Repr, DecidableEq

/-- Why a conversion failed. -/
inductive Error where
  | io (fault : FileFault)
  | malformedXml (fault : XmlFault)
  | unsupported (construct : Construct)
  | unknownToken (token page : UInt8) (role : TokenRole)
  | truncated (offset : Nat) (wanted : Wanted)
  | unterminated (offset : Nat)
  | unsupportedVersion (version : UInt8)
  | encoding (fault : EncodingFault)
  | decoding (fault : DecodingFault)
  | tableOffset (offset : UInt32)
  | tooDeep (limit : Nat)
  | usage (fault : UsageFault)
deriving Repr, DecidableEq

/-! ## Kinds -/

/-- The kinds of failure. -/
inductive ErrorKind where
  | malformedXml
  | unsupportedConstruct
  | unknownToken
  | truncatedStream
  | unterminatedString
  | unsupportedVersion
  | encoding
  | decoding
  | invalidTableOffset
  | limitExceeded
  | io
  | usage
deriving Repr, DecidableEq

namespace ErrorKind

/-- All kinds, in the order of their codes. -/
def all : List ErrorKind :=
  [.malformedXml, .unsupportedConstruct, .unknownToken, .truncatedStream, .unterminatedString,
    .unsupportedVersion, .encoding, .decoding, .invalidTableOffset, .limitExceeded, .io, .usage]

/-- The number of a kind. -/
def code : ErrorKind → Nat
  | .malformedXml => 1
  | .unsupportedConstruct => 2
  | .unknownToken => 3
  | .truncatedStream => 4
  | .unterminatedString => 5
  | .unsupportedVersion => 6
  | .encoding => 7
  | .decoding => 8
  | .invalidTableOffset => 9
  | .limitExceeded => 10
  | .io => 11
  | .usage => 12

def describe : ErrorKind → String
  | .malformedXml => "Input is not well-formed XML"
  | .unsupportedConstruct => "XML construct cannot be represented in this language"
  | .unknownToken => "Token has no entry in the code page"
  | .truncatedStream => "WBXML stream ended unexpectedly"
  | .unterminatedString => "Inline string is not null-terminated"
  | .unsupportedVersion => "WBXML version is not supported"
  | .encoding => "Internal error while encoding"
  | .decoding => "Internal error while decoding"
  | .invalidTableOffset => "String table reference is out of range"
  | .limitExceeded => "Document nesting is too deep"
  | .io => "Input/output failure"
  | .usage => "Invalid command-line usage"

/-- Whether the input is to blame, and not the program or its surroundings. -/
def isInputError : ErrorKind → Bool
  | .io | .encoding | .decoding => false
  | _ => true

/-- What a number that may be the code of a kind means; zero stands for success. -/
def describeCode (code : Nat) : String :=
  if code = 0 then "No error"
  else match all.find? (·.code == code) with
    | some kind => kind.describe
    | none => "Unknown error code"

end ErrorKind

/-! ## Words -/

def Wanted.name : Wanted → String
  | .byte => "byte"
  | .number => "mb_u_int32"
  | .bytes => "bytes"

def TokenRole.name : TokenRole → String
  | .tag => "tag"
  | .content => "content"
  | .attribute => "attribute"
  | .attributeStart => "attribute start"
  | .attributeValue => "attribute value"

def XmlFault.message : XmlFault → String
  | .grammar => "syntax error"
  | .unknownPrefix name => "unknown namespace prefix " ++ name
  | .lateDoctype => "DOCTYPE after the root element"
  | .secondRoot => "more than one root element"
  | .unclosed name => "element <" ++ name ++ "> is not closed"
  | .noRoot => "document has no root element"
  | .strayText => "character data outside the root element"
  | .unknownEntity name => "unknown entity &" ++ name ++ ";"

def Construct.message : Construct → String
  | .instruction target => "processing instruction <?" ++ target ++ "?>"
  | .doctype root language => "DOCTYPE " ++ root ++ " is not a " ++ language ++ " document"

def EncodingFault.message : EncodingFault → String
  | .nulInString position =>
    "string contains a NUL byte at position " ++ Numeral.decimal position
  | .nulInTable entry => "string table entry " ++ Quoted.text entry ++ " contains a NUL byte"
  | .tooLong length => Numeral.decimal length ++ " bytes do not fit a length prefix"
  | .tableFull => "string table exceeds 4 GiB"

def DecodingFault.message : DecodingFault → String
  | .numberOverflow offset =>
    "mb_u_int32 at offset " ++ Numeral.decimal offset ++ " overflows 32 bits"
  | .unknownCharset mib => "unsupported charset MIBenum " ++ Numeral.decimal mib.toNat
  | .trailingData offset =>
    "unexpected data after the root element at offset " ++ Numeral.decimal offset
  | .valueWithoutName => "attribute value without an attribute name"
  | .entity code => "entity 0x" ++ Numeral.hex code.toNat ++ " is not a character"
  | .notAscii text => "string " ++ Quoted.text text ++ " is not valid US-ASCII"
  | .notUtf8 fault => "string is not valid UTF-8: " ++ fault.message
  | .unwritableName name charset =>
    "name " ++ Quoted.text name ++ " cannot be written in " ++ charset.xmlName
  | .notLatin1 c => Quoted.char c ++ " is not in ISO-8859-1"

def FileFault.message : FileFault → String
  | .notFound => "No such file or directory (os error 2)"
  | .notDirectory => "Not a directory (os error 20)"
  | .isDirectory => "Is a directory (os error 21)"
  | .nulInName => "file name contained an unexpected NUL byte"
  | .nameTooLong => "File name too long (os error 36)"
  | .other detail => detail

def UsageFault.message : UsageFault → String
  | .noSubcommand => "Missing subcommand"
  | .noInput => "Missing input path"
  | .inPlaceStdin => "Cannot use -i option with stdin input"

namespace Error

def kind : Error → ErrorKind
  | .io _ => .io
  | .malformedXml _ => .malformedXml
  | .unsupported _ => .unsupportedConstruct
  | .unknownToken .. => .unknownToken
  | .truncated .. => .truncatedStream
  | .unterminated _ => .unterminatedString
  | .unsupportedVersion _ => .unsupportedVersion
  | .encoding _ => .encoding
  | .decoding _ => .decoding
  | .tableOffset _ => .invalidTableOffset
  | .tooDeep _ => .limitExceeded
  | .usage _ => .usage

def message : Error → String
  | .io fault => "IO error: " ++ fault.message
  | .malformedXml fault => "Malformed XML: " ++ fault.message
  | .unsupported construct => "Unsupported construct: " ++ construct.message
  | .unknownToken token page role =>
    "Unknown " ++ role.name ++ " token 0x" ++ Numeral.hexByte token ++ " on code page " ++
      Numeral.decimal page.toNat
  | .truncated offset wanted =>
    "Stream truncated at offset " ++ Numeral.decimal offset ++ " while reading " ++ wanted.name
  | .unterminated offset => "Unterminated string starting at offset " ++ Numeral.decimal offset
  | .unsupportedVersion version => "Unsupported WBXML version 0x" ++ Numeral.hexByte version
  | .encoding fault => "Encoding error: " ++ fault.message
  | .decoding fault => "Decoding error: " ++ fault.message
  | .tableOffset offset => "Invalid string table offset: " ++ Numeral.decimal offset.toNat
  | .tooDeep limit => "Element nesting exceeds the limit of " ++ Numeral.decimal limit
  | .usage fault => "Usage error: " ++ fault.message

end Error

end BinaryXml
