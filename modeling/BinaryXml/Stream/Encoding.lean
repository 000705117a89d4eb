import BinaryXml.Document.Stripped
import BinaryXml.Stream.Header
import BinaryXml.Stream.Token

/-!
# From a document to a stream

* `Encoding.singleAttribute` and `Encoding.element` choose the tokens of a document.
* `Encoding.run` writes a whole stream and reports on the way.
* `encodeDocument` is its result alone.
-/

namespace BinaryXml

set_option autoImplicit false

namespace Encoding

/-! ## State -/

/-- What stays the same while a document is written. -/
structure Context where
  language : Language
  opaqueEncoding : OpaqueEncoding
  maxDepth : Nat
  /-- The texts that are written by their offset in the string table. -/
  sharedTexts : List String
  /-- Whether literal names are written by their offset in the string table. -/
  literalsInTable : Bool

/-- What changes while a document is written: the string table, the current code pages, and the
reports so far. -/
structure State where
  table : TableBuilder
  tagPage : UInt8 := 0
  attributePage : UInt8 := 0
  events : List Event := []

/-- A computation that writes parts of a document. -/
abbrev Encode (α : Type) := EStateM Error State α

def report (event : Event) : Encode Unit :=
  modify fun state => { state with events := state.events ++ [event] }

def lift {α : Type} : Except Error α → Encode α
  | .ok value => pure value
  | .error error => throw error

/-- The offset of a string in the table. -/
def intern (entry : String) : Encode UInt32 := fun state =>
  match TableBuilder.intern entry state.table with
  | .ok offset table => .ok offset { state with table }
  | .error error table => .error error { state with table }

/-! ## Texts -/

/-- The least number of bytes of a text that is worth sharing. -/
def leastShared : Nat := 4

/-- The texts of a tree that are long enough to be shared and occur more than once. -/
def sharedTexts (root : Element) : List String :=
  let texts := root.texts
  texts.filter fun text => leastShared ≤ (Utf8.encode text).length && 1 < texts.count text

def text (context : Context) (content : String) : Encode Token := do
  if context.sharedTexts.contains content then
    pure (.tableString (← intern content))
  else
    let _ ← lift (Frame.terminated? content)
    pure (.inlineString content)

def literalName (context : Context) (name : String) : Encode LiteralName := do
  if context.literalsInTable then
    pure (.indexed (← intern name))
  else
    let _ ← lift (Frame.terminated? name)
    pure (.inline name)

/-! ## Code pages -/

/-- The tokens that make a code page of tags the current one. -/
def switchTagPage (page : UInt8) : Encode (List Token) := do
  let old := (← get).tagPage
  if page = old then pure []
  else
    report (.tagPageWritten old page)
    modify fun state => { state with tagPage := page }
    pure [.switchPage page]

/-- The tokens that make a code page of attributes the current one. -/
def switchAttributePage (page : UInt8) : Encode (List Token) := do
  let old := (← get).attributePage
  if page = old then pure []
  else
    report (.attributePageWritten old page)
    modify fun state => { state with attributePage := page }
    pure [.switchPage page]

/-! ## Attributes -/

/-- The tokens of a value, or of the rest of one. -/
def attributeValue (context : Context) (value : String) : Encode (List Token) := do
  if value.isEmpty then pure []
  else
    match context.language.attributeValue? value (← get).attributePage with
    | some entry => return (← switchAttributePage entry.page) ++ [.code entry.token]
    | none => return [← text context value]

def singleAttribute (context : Context) : Attribute → Encode (List Token)
  | ⟨name, value⟩ => do
    match context.language.attributeStart? name value (← get).attributePage with
    | some entry =>
      let switch ← switchAttributePage entry.page
      let rest ← attributeValue context (entry.remainder value)
      pure (switch ++ .code entry.token :: rest)
    | none =>
      report (.literalAttribute name)
      let literal ← literalName context name
      let rest ← attributeValue context value
      pure (.literal Code.literal literal :: rest)

/-- The tokens of attributes, one after the other. -/
def eachAttribute (context : Context) : List Attribute → Encode (List Token)
  | [] => pure []
  | first :: rest => do
    let tokens ← singleAttribute context first
    let others ← eachAttribute context rest
    pure (tokens ++ others)

/-- The tokens of an attribute list. There is none without attributes. -/
def attributes (context : Context) (list : List Attribute) : Encode (List Token) := do
  if list.isEmpty then pure []
  else return (← eachAttribute context list) ++ [.finish]

/-! ## Elements -/

/-- The flags of the tag of an element. -/
def flags (attributes : List Attribute) (children : List Node) : UInt8 :=
  (if attributes.isEmpty then 0 else Code.hasAttributes) |||
    (if children.isEmpty then 0 else Code.hasContent)

/-- The tokens of the tag of an element. -/
def tag (context : Context) (name : String) (uri : Option String) (flags : UInt8) :
    Option TagCode → Encode (List Token)
  | some code => return (← switchTagPage code.page) ++ [.code (code.token ||| flags)]
  | none => do
    report (.literalTag name uri)
    pure [.literal (Code.literal ||| flags) (← literalName context name)]

/-- The data that the children of an element are the text of, if its tag is an opaque one. -/
def opaqueData? (context : Context) (name : String) (children : List Node) (code : TagCode) :
    Encode (Option Bytes) := do
  if context.language.isOpaque code then
    let data? := match children with
      | [.text content] => context.opaqueEncoding.decode content
      | _ => none
    if data?.isNone then report (.notOpaque name context.opaqueEncoding)
    pure data?
  else pure none

mutual

/-- The tokens of an element at some depth. -/
def element (context : Context) (depth : Nat) : Element → Encode (List Token)
  | ⟨name, uri, attributeList, children⟩ => do
    if context.maxDepth < depth then throw (.tooDeep context.maxDepth)
    let code? := context.language.tagCode? uri name (← get).tagPage
    let start ← tag context name uri (flags attributeList children) code?
    let attributes ← attributes context attributeList
    if children.isEmpty then pure (start ++ attributes)
    else
      let data? ← match code? with
        | some code => opaqueData? context name children code
        | none => pure none
      match data? with
      | some data =>
        let _ ← lift (Frame.counted? data)
        pure (start ++ attributes ++ [.opaqueData data, .finish])
      | none =>
        let inner ← content context (depth + 1) children
        pure (start ++ attributes ++ inner ++ [.finish])

/-- The tokens of nodes of which the elements are at some depth. -/
def content (context : Context) (depth : Nat) : List Node → Encode (List Token)
  | [] => pure []
  | .element child :: rest => do
    let first ← element context depth child
    let others ← content context depth rest
    pure (first ++ others)
  | .text data :: rest => do
    let first ← text context data
    let others ← content context depth rest
    pure (first :: others)
  | .comment _ :: rest => content context depth rest

end

/-! ## Streams -/

/-- The identifier that a header carries. The name of a language goes into the string table. -/
def publicId (options : EncodeOptions) : EStateM Error TableBuilder PublicId :=
  if options.includePublicId then
    match options.language.publicId with
    | some value => pure (.number value)
    | none => do pure (.indexed (← TableBuilder.intern options.language.fpi))
  else pure (.number PublicId.unknown)

/-- What stays the same while a document with some outermost element is written, if the string
table is `table` at the start. -/
def Context.of (options : EncodeOptions) (table : TableBuilder) (root : Element) : Context where
  language := options.language
  opaqueEncoding := options.opaqueEncoding
  maxDepth := options.maxDepth
  sharedTexts := if options.useStringTable then Encoding.sharedTexts root else []
  literalsInTable := options.useStringTable || !table.entries.isEmpty

def assemble (options : EncodeOptions) (publicId : PublicId) (table : TableBuilder)
    (tokens : List Token) : Except Error Bytes := do
  let header : Header := ⟨options.version, publicId, .utf8, ⟨table.bytes⟩⟩
  pure ((← header.bytes) ++ tokens.flatMap Token.bytes)

/-- Writes a document as a stream and reports on the way. -/
def run (options : EncodeOptions) (document : Document) : Outcome Error Bytes :=
  if newestVersion < options.version then ⟨.error (.unsupportedVersion options.version), []⟩
  else
    match publicId options {} with
    | .error error _ => ⟨.error error, []⟩
    | .ok id table =>
      let root := document.root.stripped options.whitespace
      match element (Context.of options table root) 1 root { table } with
      | .error error state => ⟨.error error, state.events⟩
      | .ok tokens state => ⟨assemble options id state.table tokens, state.events⟩

end Encoding

/-- The stream of a document. -/
def encodeDocument (options : EncodeOptions) (document : Document) : Except Error Bytes :=
  (Encoding.run options document).result

end BinaryXml
