import BinaryXml.Language.Namespace

/-!
# Languages

A language assigns one-byte tokens to tags, to attribute names with the start of a value, and to
whole attribute values. Tokens are grouped in numbered code pages.

* `Language.tagName?` and `Language.tagCode?` lead from a token to its tag and back.
* `Language.attributeStart?` and `Language.attributeValue?` choose the tokens of an attribute;
  `Language.attributeStartAt?` and `Language.attributeValueAt?` find what a token stands for.
-/

namespace BinaryXml

set_option autoImplicit false

/-! ## Entries -/

/-- A tag and its token. -/
structure TagEntry where
  token : UInt8
  name : String
deriving Repr, DecidableEq

/-- A numbered namespace of tags. The content of the tags listed in `opaqueTokens` travels as raw
bytes. -/
structure CodePage where
  page : UInt8
  uri : String
  tags : List TagEntry
  opaqueTokens : List UInt8 := []
deriving Repr, DecidableEq

/-- A token for an attribute's name and for the start of its value. -/
structure AttributeStart where
  page : UInt8
  token : UInt8
  name : String
  valueStart : String
deriving Repr, DecidableEq

/-- A token for an attribute value, or for the rest of one. -/
structure AttributeValue where
  page : UInt8
  token : UInt8
  value : String
deriving Repr, DecidableEq

/-- The place of a tag in a language. -/
structure TagCode where
  page : UInt8
  token : UInt8
deriving Repr, DecidableEq

/-- A language: its identifiers and its tokens. -/
structure Language where
  name : String
  /-- The registered number of the language, if it has one. -/
  publicId : Option UInt32
  /-- The formal public identifier of its document type. -/
  fpi : String
  /-- The address of its document type definition. -/
  dtd : String
  /-- The root that its document type declaration names. -/
  doctypeRoot : String
  pages : List CodePage
  attributeStarts : List AttributeStart := []
  attributeValues : List AttributeValue := []
deriving Repr, DecidableEq

namespace CodePage

def tagName? (codePage : CodePage) (token : UInt8) : Option String :=
  (codePage.tags.find? (·.token == token)).map (·.name)

def tagToken? (codePage : CodePage) (name : String) : Option UInt8 :=
  (codePage.tags.find? (·.name == name)).map (·.token)

end CodePage

namespace AttributeStart

/-- Whether an entry stands for an attribute's name and for the start of its value. -/
def covers (entry : AttributeStart) (name value : String) : Bool :=
  entry.name == name && entry.valueStart.toList.isPrefixOf value.toList

/-- The part of a value that an entry leaves to be written. -/
def remainder (entry : AttributeStart) (value : String) : String :=
  String.ofList (value.toList.drop entry.valueStart.toList.length)

/-- How well an entry suits: by the length of the value's start, then by its page. -/
def rank (current : UInt8) (entry : AttributeStart) : Nat :=
  2 * entry.valueStart.toList.length + if entry.page == current then 1 else 0

/-- The better of two entries, the later one if they are equally good. -/
def better (current : UInt8) : Option AttributeStart → AttributeStart → Option AttributeStart
  | none, entry => some entry
  | some best, entry => if best.rank current ≤ entry.rank current then some entry else some best

end AttributeStart

namespace Language

/-! ## Tags -/

def codePage? (language : Language) (page : UInt8) : Option CodePage :=
  language.pages.find? (·.page == page)

def uri? (language : Language) (page : UInt8) : Option String :=
  (language.codePage? page).map (·.uri)

/-- The number of the first code page with a namespace. -/
def pageOfUri? (language : Language) (uri : String) : Option UInt8 :=
  (language.pages.find? fun codePage => Namespace.same codePage.uri uri).map (·.page)

/-- The tag that a token stands for on a page. -/
def tagName? (language : Language) (page token : UInt8) : Option String :=
  (language.codePage? page).bind (·.tagName? token)

/-- The place of a tag on a page. -/
def tagOnPage? (language : Language) (name : String) (page : UInt8) : Option TagCode := do
  let codePage ← language.codePage? page
  let token ← codePage.tagToken? name
  some ⟨page, token⟩

/-- The place of a tag. A namespace that names a code page confines the search to that page;
otherwise the current page comes first and then the other pages in their order. -/
def tagCode? (language : Language) (uri : Option String) (name : String) (current : UInt8) :
    Option TagCode :=
  match uri.bind language.pageOfUri? with
  | some page => language.tagOnPage? name page
  | none =>
    (language.tagOnPage? name current).or
      (((language.pages.map (·.page)).filter (· != current)).findSome? (language.tagOnPage? name))

/-- Whether the content of a tag travels as raw bytes. -/
def isOpaque (language : Language) (code : TagCode) : Bool :=
  (language.codePage? code.page).any (·.opaqueTokens.contains code.token)

/-! ## Attributes -/

/-- The entry that stands for the longest start of an attribute's value. Of equally long ones an
entry on the current page is better, and of equally good ones the last is taken. -/
def attributeStart? (language : Language) (name value : String) (current : UInt8) :
    Option AttributeStart :=
  (language.attributeStarts.filter (·.covers name value)).foldl (AttributeStart.better current) none

def attributeStartAt? (language : Language) (page token : UInt8) : Option AttributeStart :=
  language.attributeStarts.find? fun entry => entry.page == page && entry.token == token

/-- The first entry for a value, on the current page if there is one. -/
def attributeValue? (language : Language) (value : String) (current : UInt8) :
    Option AttributeValue :=
  let found := language.attributeValues.filter (·.value == value)
  (found.find? (·.page == current)).or found.head?

def attributeValueAt? (language : Language) (page token : UInt8) : Option AttributeValue :=
  language.attributeValues.find? fun entry => entry.page == page && entry.token == token

end Language

end BinaryXml
