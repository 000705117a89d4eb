import BinaryXml.Document.Basic
import BinaryXml.Error
import BinaryXml.Options

/-!
# From a document to XML

* `Writing.escape` writes character data.
* `Writing.element` writes an element; `xmlns` appears where its namespace is not the one that
  holds already.
* `writeDocument` writes a whole document in its character set.
-/

namespace BinaryXml

set_option autoImplicit false

namespace Writing

/-! ## Characters -/

/-- The characters of which the markup of character data is made, and in attribute values the
quotes, become references. -/
def escapeMarkup (inAttribute : Bool) (c : Char) : List Char :=
  if c = '<' then "&lt;".toList
  else if c = '>' then "&gt;".toList
  else if c = '&' then "&amp;".toList
  else if inAttribute && c == '\'' then "&apos;".toList
  else if inAttribute && c == '"' then "&quot;".toList
  else [c]

/-- Characters outside of the character set become references by number. -/
def escapeForeign (charset : Charset) (c : Char) : List Char :=
  if charset.canEncode c then [c]
  else '&' :: '#' :: 'x' :: Numeral.digits 16 c.toNat ++ [';']

/-- Character data as it is written in a character set. -/
def escape (charset : Charset) (inAttribute : Bool) (data : String) : String :=
  String.ofList ((data.toList.flatMap (escapeMarkup inAttribute)).flatMap (escapeForeign charset))

/-- A comment as it is written in a character set. There are no references in comments. -/
def commentText (charset : Charset) (data : String) : String :=
  String.ofList (data.toList.map fun c => if charset.canEncode c then c else '?')

/-- Checks that a name can be written. There are no references in names. -/
def checkName (charset : Charset) (name : String) : Except Error Unit :=
  if name.toList.all charset.canEncode then .ok ()
  else .error (.decoding (.unwritableName name charset))

/-! ## Layout -/

/-- Where the lines of pretty output start: so many spaces for each level, at some level. -/
structure Layout where
  width : Nat
  level : Nat

/-- The layout one level further in. -/
def Layout.nested (layout : Layout) : Layout :=
  { layout with level := layout.level + 1 }

/-- The end of a line and the spaces before the next; nothing in compact output. -/
def lineBreak : Option Layout → String
  | none => ""
  | some layout => String.ofList ('\n' :: List.replicate (layout.width * layout.level) ' ')

/-- Whether there is text among some nodes. -/
def isMixed (nodes : List Node) : Bool :=
  nodes.any fun
    | .text _ => true
    | _ => false

/-! ## Elements -/

/-- One attribute, with the blank in front of it. -/
def attributeText (charset : Charset) (name value : String) : String :=
  " " ++ name ++ "=\"" ++ escape charset true value ++ "\""

/-- The attributes of a tag. -/
def attributes (charset : Charset) : List Attribute → Except Error String
  | [] => .ok ""
  | ⟨name, value⟩ :: rest => do
    checkName charset name
    return attributeText charset name value ++ (← attributes charset rest)

/-- Whether an element has to declare its namespace where another one holds. -/
def declares (scope : Option String) (uri : String) : Bool :=
  !scope.any (Namespace.same · uri)

/-- The declaration of a namespace that an element needs, and the namespace that holds in the
element. -/
def declaration (charset : Charset) (scope uri : Option String) : String × Option String :=
  match uri with
  | none => ("", scope)
  | some uri =>
    if declares scope uri then (attributeText charset "xmlns" uri, some uri) else ("", scope)

mutual

/-- The text of an element, where some namespace holds. -/
def element (charset : Charset) (scope : Option String) (layout : Option Layout) :
    Element → Except Error String
  | ⟨name, uri, attributeList, children⟩ => do
    checkName charset name
    let (declared, inner) := declaration charset scope uri
    let attributes ← attributes charset attributeList
    let start := "<" ++ name ++ declared ++ attributes
    if children.isEmpty then pure (start ++ "/>")
    else
      let layout := if isMixed children then none else layout
      let content ← content charset inner (layout.map Layout.nested) children
      pure (start ++ ">" ++ content ++ lineBreak layout ++ "</" ++ name ++ ">")

/-- The text of nodes, each on a line of its own in pretty output. -/
def content (charset : Charset) (scope : Option String) (layout : Option Layout) :
    List Node → Except Error String
  | [] => pure ""
  | .element child :: rest => do
    let text ← element charset scope layout child
    return lineBreak layout ++ text ++ (← content charset scope layout rest)
  | .text data :: rest => do
    return lineBreak layout ++ escape charset false data ++ (← content charset scope layout rest)
  | .comment data :: rest => do
    return lineBreak layout ++ "<!--" ++ commentText charset data ++ "-->" ++
      (← content charset scope layout rest)

end

/-! ## Documents -/

/-- The XML declaration. It names the character set unless that is UTF-8. -/
def xmlDeclaration (charset : Charset) : String :=
  match charset with
  | .utf8 => "<?xml version=\"1.0\"?>"
  | _ => "<?xml version=\"1.0\" encoding=\"" ++ charset.xmlName ++ "\"?>"

/-- The document type declaration of a language. -/
def doctype (language : Language) : String :=
  "<!DOCTYPE " ++ language.doctypeRoot ++ " PUBLIC \"" ++ language.fpi ++ "\" \"" ++
    language.dtd ++ "\">"

/-- The layout that options ask for. -/
def Layout.of (options : DecodeOptions) : Option Layout :=
  match options.form with
  | .compact => none
  | .pretty => some ⟨options.indent, 0⟩

/-- The characters of a document. -/
def text (options : DecodeOptions) (document : Document) : Except Error String := do
  let layout := Layout.of options
  let root ← element options.charset none layout document.root
  pure (xmlDeclaration options.charset ++ lineBreak layout ++ doctype options.language ++
    lineBreak layout ++ root)

/-- The bytes of characters that all belong to ISO-8859-1. -/
def latin1 : List Char → Except Error Bytes
  | [] => .ok []
  | c :: rest =>
    if c.toNat < 0x100 then (UInt8.ofNat c.toNat :: ·) <$> latin1 rest
    else .error (.decoding (.notLatin1 c))

end Writing

/-- The XML text of a document, in the character set of the options. -/
def writeDocument (options : DecodeOptions) (document : Document) : Except Error Bytes := do
  let text ← Writing.text options document
  match options.charset with
  | .latin1 => Writing.latin1 text.toList
  | .utf8 | .usAscii => pure (Utf8.encode text)

end BinaryXml
