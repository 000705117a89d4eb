import BinaryXml.Document.Basic
import BinaryXml.Stream.Code
import BinaryXml.Stream.Header
import BinaryXml.Stream.Strings
import BinaryXml.Text.Scalar

/-!
# From a stream to a document

* `Decoding.attributes` and `Decoding.content` read the two kinds of lists that an element has, and
  `Decoding.element` reads an element.
* `Decoding.run` reads a whole stream and reports on the way.
* `decodeDocument` is its result alone.
-/

namespace BinaryXml

set_option autoImplicit false

namespace Decoding

/-! ## State -/

/-- What stays the same while a stream is read. -/
structure Context where
  language : Language
  charset : Charset
  table : StringTable
  whitespace : Whitespace
  opaqueEncoding : OpaqueEncoding
  maxDepth : Nat

/-- What changes while a stream is read: the place in it, the current code pages, and the reports
so far. -/
structure State where
  cursor : Cursor
  tagPage : UInt8 := 0
  attributePage : UInt8 := 0
  events : List Event := []

/-- A computation that reads from a stream. -/
abbrev Decode (α : Type) := EStateM Error State α

def read {α : Type} (reader : Reader α) : Decode α := fun state =>
  match reader state.cursor with
  | .ok value cursor => .ok value { state with cursor }
  | .error error cursor => .error error { state with cursor }

def report (event : Event) : Decode Unit :=
  modify fun state => { state with events := state.events ++ [event] }

/-- The result of a computation that reads nothing. -/
def lift {α : Type} : Except Error α → Decode α
  | .ok value => pure value
  | .error error => throw error

def remaining : Decode Nat := do
  pure (← get).cursor.rest.length

/-! ## Code pages -/

/-- Reads the number of the next code page of tags. -/
def switchTagPage : Decode Unit := do
  let page ← read Reader.byte
  modify fun state => { state with tagPage := page }
  report (.tagPageRead page)

/-- Reads the number of the next code page of attributes. -/
def switchAttributePage : Decode Unit := do
  let page ← read Reader.byte
  modify fun state => { state with attributePage := page }
  report (.attributePageRead page)

/-- Fails on a token that the current code page of tags does not explain. -/
def unknownTag {α : Type} (token : UInt8) (role : TokenRole) : Decode α := do
  throw (.unknownToken token (← get).tagPage role)

/-- Fails on a token that the current code page of attributes does not explain. -/
def unknownAttribute {α : Type} (token : UInt8) (role : TokenRole) : Decode α := do
  throw (.unknownToken token (← get).attributePage role)

/-! ## Strings -/

/-- The text of the string at an offset of the table. -/
def tableString (context : Context) (offset : UInt32) : Except Error String := do
  context.charset.decode (← context.table.get offset)

/-- Reads the characters that a token announces. -/
def string (context : Context) : StringToken → Decode String
  | .inline => do lift (context.charset.decode (← read Reader.string))
  | .table => do lift (tableString context (← read Reader.number))
  | .entity => do
    let code ← read Reader.number
    match Scalar.char? code.toNat with
    | some c => pure (String.singleton c)
    | none => throw (.decoding (.entity code))
  | .data => do pure (context.opaqueEncoding.encode (← read Reader.counted))

/-- Reads the name behind a literal token. It is spelt out if the stream has no string table. -/
def literalName (context : Context) : Decode String :=
  if context.table.data.isEmpty then string context .inline else string context .table

/-! ## Attributes -/

/-- Adds to the value of the attribute that is being read. -/
def addValue (current : Option Attribute) (value : String) : Except Error (Option Attribute) :=
  match current with
  | some started => .ok (some { started with value := started.value ++ value })
  | none => .error (.decoding .valueWithoutName)

/-- Reads attributes up to the end of their list, after the start of `current`. The first argument
bounds the number of tokens; the bytes that are left are enough. -/
def attributes (context : Context) : Nat → Option Attribute → Decode (List Attribute)
  | 0, _ => do
    let _ ← read Reader.byte
    pure []
  | bound + 1, current => do
    let token ← read Reader.byte
    match AttributeToken.ofByte token with
    | .finish => pure current.toList
    | .switchPage =>
      switchAttributePage
      attributes context bound current
    | .literal =>
      let name ← literalName context
      let others ← attributes context bound (some ⟨name, ""⟩)
      pure (current.toList ++ others)
    | .string kind =>
      let value ← string context kind
      attributes context bound (← lift (addValue current value))
    | .reserved => unknownAttribute token .attribute
    | .start =>
      match context.language.attributeStartAt? (← get).attributePage token with
      | some entry =>
        let others ← attributes context bound (some ⟨entry.name, entry.valueStart⟩)
        pure (current.toList ++ others)
      | none => unknownAttribute token .attributeStart
    | .value =>
      match context.language.attributeValueAt? (← get).attributePage token with
      | some entry => attributes context bound (← lift (addValue current entry.value))
      | none => unknownAttribute token .attributeValue

/-! ## Elements -/

/-- Reads what a tag token leaves open: the name of its element and the namespace. -/
def tag (context : Context) (token : UInt8) : Decode (String × Option String) := do
  if Code.base token = Code.literal then
    pure (← literalName context, none)
  else if Code.firstOfPage ≤ Code.base token then
    let page := (← get).tagPage
    match context.language.tagName? page (Code.base token) with
    | some name => pure (name, context.language.uri? page)
    | none => unknownTag token .tag
  else unknownTag token .tag

/-- The children of an element, from the pieces of its content: neighbouring texts are one text,
and each text is treated as the white space policy says. -/
def arrange (whitespace : Whitespace) (pieces : List Node) : List Node :=
  (Node.coalesce pieces).filterMap fun
    | .text content => (whitespace.apply content).map .text
    | node => some node

/-- Reads the element that a tag token begins, with a given reader for its content. -/
def element (context : Context) (content : Decode (List Node)) (depth : Nat) (token : UInt8) :
    Decode Element := do
  if context.maxDepth < depth then throw (.tooDeep context.maxDepth)
  let (name, uri) ← tag context token
  let attributes ←
    if token &&& Code.hasAttributes ≠ 0 then attributes context (← remaining) none else pure []
  let pieces ← if token &&& Code.hasContent ≠ 0 then content else pure []
  pure { name, uri, attributes, children := arrange context.whitespace pieces }

/-- Reads the pieces of the content of an element at some depth. The first argument bounds the
number of tokens; the bytes that are left are enough. -/
def content (context : Context) : Nat → Nat → Decode (List Node)
  | 0, _ => do
    let _ ← read Reader.byte
    pure []
  | bound + 1, depth => do
    let token ← read Reader.byte
    match ContentToken.ofByte token with
    | .finish => pure []
    | .switchPage =>
      switchTagPage
      content context bound depth
    | .string kind =>
      let text ← string context kind
      let others ← content context bound depth
      pure (.text text :: others)
    | .reserved => unknownTag token .content
    | .tag =>
      let child ← element context (content context bound (depth + 1)) (depth + 1) token
      let others ← content context bound depth
      pure (.element child :: others)

/-! ## Streams -/

/-- Reads the changes of code page in front of the outermost element. The argument bounds their
number. -/
def leadingPages : Nat → Decode Unit
  | 0 => pure ()
  | bound + 1 => do
    if (← get).cursor.peek? = some Code.switchPage then
      let _ ← read Reader.byte
      switchTagPage
      leadingPages bound

/-- Reads what follows the header. -/
def body (context : Context) : Decode Document := do
  leadingPages (← remaining)
  let token ← read Reader.byte
  let root ← element context (content context (← remaining) 1) 1 token
  let cursor := (← get).cursor
  if cursor.atEnd then pure ⟨root⟩ else throw (.decoding (.trailingData cursor.offset))

/-- What stays the same while a stream with some header is read. -/
def Context.of (options : DecodeOptions) (header : Header) : Context where
  language := options.language
  charset := header.charset
  table := header.table
  whitespace := options.whitespace
  opaqueEncoding := options.opaqueEncoding
  maxDepth := options.maxDepth

/-- Reads a stream and reports on the way. -/
def run (options : DecodeOptions) (stream : Bytes) : Outcome Error Document :=
  match Header.read (Cursor.ofBytes stream) with
  | .error error _ => ⟨.error error, []⟩
  | .ok header cursor =>
    match header.warnings options.language with
    | .error error => ⟨.error error, []⟩
    | .ok events =>
      match body (Context.of options header) { cursor, events } with
      | .ok document state => ⟨.ok document, state.events⟩
      | .error error state => ⟨.error error, state.events⟩

end Decoding

/-- The document of a stream. -/
def decodeDocument (options : DecodeOptions) (stream : Bytes) : Except Error Document :=
  (Decoding.run options stream).result

end BinaryXml
