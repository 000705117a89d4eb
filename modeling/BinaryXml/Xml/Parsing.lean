import BinaryXml.Document.Basic
import BinaryXml.Language.Basic
import BinaryXml.Text.Blank
import BinaryXml.Xml.Reference
import BinaryXml.Xml.Scope

/-!
# From XML to a document

* `Parsing.startTag` reads a start tag, and `Parsing.content` what follows it up to the end tag.
* `Parsing.outside` reads what stands around the outermost element.
* `parseDocument` reads a whole text.
-/

namespace BinaryXml

set_option autoImplicit false

namespace Parsing

/-! ## Pieces -/

/-- What stays the same while a text is read. -/
structure Context where
  language : Language
  maxDepth : Nat

/-- Fails on a text that breaks the grammar. -/
def grammarFault {α : Type} : Except Error α :=
  .error (.malformedXml .grammar)

/-- The result of a step, if it has one; without one the text breaks the grammar. -/
def required {α : Type} : Option α → Except Error α
  | some value => .ok value
  | none => grammarFault

def utf8 (bytes : Bytes) : Except Error String :=
  match Utf8.decode bytes with
  | .ok text => .ok text
  | .error _ => grammarFault

/-- The text of a reference with some name in the content of an element. -/
def reference (name : Bytes) : Except Error String := do
  let name ← utf8 name
  match Reference.inContent? name.toList with
  | some c => .ok (String.singleton c)
  | none => .error (.malformedXml (.unknownEntity name))

/-- Whether a language has a document type declaration with some content: it names the language's
root first, or the language's public identifier anywhere. -/
def admitsDoctype (language : Language) (content : String) : Bool :=
  Blank.firstWord content == language.doctypeRoot ||
    (Markup.cut (Utf8.encode language.fpi) (Utf8.encode content)).isSome

def checkDoctype (language : Language) (content : Bytes) : Except Error Unit := do
  let content ← utf8 content
  if admitsDoctype language content then .ok ()
  else .error (.unsupported (.doctype (Blank.firstWord content) language.name))

def instructionFault {α : Type} (target : Bytes) : Except Error α :=
  .error (.unsupported (.instruction (Utf8.lossy target)))

/-! ## Start tags -/

/-- Reads attributes of a tag, where some keys have occurred already. Declarations of namespaces
are left out. -/
def attributes (seen : List Bytes) : List RawAttribute → Except Error (List Attribute)
  | [] => .ok []
  | item :: rest => do
    if seen.contains item.key then grammarFault
    let others := attributes (item.key :: seen) rest
    if (Scope.declared? item.key).isSome then others
    else
      let value ← required (Reference.unescape (← utf8 item.value))
      let name ← utf8 item.key
      return ⟨name, value⟩ :: (← others)

/-- Reads a start tag below `depth` open elements, after the declarations of namespaces in it: an
element without children. -/
def startTag (context : Context) (scope : Scope) (depth : Nat) (tag : Tag) :
    Except Error Element := do
  if context.maxDepth ≤ depth then .error (.tooDeep context.maxDepth)
  let (front, localName) := Scope.split tag.name
  let name ← utf8 localName
  let uri ← match scope.uri? front with
    | .error fault => .error (.malformedXml fault)
    | .ok none => pure none
    | .ok (some uri) => some <$> utf8 uri
  let list := AttributeList.scan tag.attributes
  let attributes ← attributes [] list.items
  if list.complete then pure { name, uri, attributes } else grammarFault

/-- The bindings of namespaces inside the element of a start tag. -/
def innerScope (scope : Scope) (tag : Tag) : Except Error Scope :=
  match scope.declare (AttributeList.scan tag.attributes).items with
  | .ok scope => .ok scope
  | .error fault => .error (.malformedXml fault)

/-- An element with its children: neighbouring character data is one text. -/
def close (element : Element) (pieces : List Node) : Element :=
  { element with children := Node.coalesce pieces }

/-! ## Content -/

/-- An open element: the name in its start tag, and its own name. -/
structure Open where
  tagName : Bytes
  name : String

/-- Reads the content of an element below `depth` open elements (itself among them), and its end
tag. The first argument bounds the number of pieces; the length of the text is enough. -/
def content (context : Context) :
    Nat → Scope → Nat → Open → Bytes → Except Error (List Node × Bytes)
  | 0, _, _, opened, _ | _ + 1, _, _, opened, [] => .error (.malformedXml (.unclosed opened.name))
  | bound + 1, scope, depth, opened, b :: text => do
    let (piece, rest) ← required (Markup.next (b :: text))
    let followedBy (node : Node) (rest : Bytes) : Except Error (List Node × Bytes) := do
      let (others, rest) ← content context bound scope depth opened rest
      pure (node :: others, rest)
    match piece with
    | .text data | .cdata data => do followedBy (.text (← utf8 data)) rest
    | .reference name => do followedBy (.text (← reference name)) rest
    | .comment data => do followedBy (.comment (← utf8 data)) rest
    | .declaration => content context bound scope depth opened rest
    | .doctype _ => .error (.malformedXml .lateDoctype)
    | .instruction target => instructionFault target
    | .closing name => if name = opened.tagName then pure ([], rest) else grammarFault
    | .empty tag => do
      let scope ← innerScope scope tag
      let element ← startTag context scope depth tag
      followedBy (.element element) rest
    | .opening tag => do
      let scope ← innerScope scope tag
      let element ← startTag context scope depth tag
      let (pieces, rest) ← content context bound scope (depth + 1) ⟨tag.name, element.name⟩ rest
      followedBy (.element (close element pieces)) rest

/-! ## Documents -/

/-- Checks character data outside of the outermost element. -/
def checkBlank (data : String) : Except Error Unit :=
  if Blank.isBlankText data then .ok () else .error (.malformedXml .strayText)

/-- Checks that no outermost element has been read. -/
def checkFirst (root : Option Element) : Except Error Unit :=
  match root with
  | none => .ok ()
  | some _ => .error (.malformedXml .secondRoot)

/-- Reads what stands around the outermost element, and that element. The first argument bounds
the number of pieces; the length of the text is enough. -/
def outside (context : Context) : Nat → Option Element → Bytes → Except Error Element
  | 0, root, _ | _ + 1, root, [] =>
    match root with
    | some element => .ok element
    | none => .error (.malformedXml .noRoot)
  | bound + 1, root, b :: text => do
    let (piece, rest) ← required (Markup.next (b :: text))
    match piece with
    | .text data | .cdata data =>
      checkBlank (← utf8 data)
      outside context bound root rest
    | .reference name =>
      checkBlank (← reference name)
      outside context bound root rest
    | .comment _ | .declaration => outside context bound root rest
    | .doctype data =>
      if root.isSome then .error (.malformedXml .lateDoctype)
      checkDoctype context.language data
      outside context bound root rest
    | .instruction target => instructionFault target
    | .closing _ => grammarFault
    | .empty tag =>
      let scope ← innerScope Scope.initial tag
      checkFirst root
      outside context bound (some (← startTag context scope 0 tag)) rest
    | .opening tag =>
      let scope ← innerScope Scope.initial tag
      checkFirst root
      let element ← startTag context scope 0 tag
      let (pieces, rest) ← content context bound scope 1 ⟨tag.name, element.name⟩ rest
      outside context bound (some (close element pieces)) rest

end Parsing

/-- The mark that may stand in front of a text in UTF-8. -/
def byteOrderMark : Bytes := [0xEF, 0xBB, 0xBF]

/-- The document that an XML text holds. -/
def parseDocument (language : Language) (maxDepth : Nat) (text : Bytes) :
    Except Error Document :=
  let text := (Markup.after byteOrderMark text).getD text
  Document.mk <$> Parsing.outside ⟨language, maxDepth⟩ text.length none text

end BinaryXml
