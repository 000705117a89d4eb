import BinaryXml.Text.Utf8

/-!
# Markup

An XML text as a sequence of pieces: character data, references and markup. Only the bytes that
delimit pieces are looked at; what is inside them need not be UTF-8.

* `Markup` is a piece.
* `Markup.next` takes the first piece off a text.
-/

namespace BinaryXml

set_option autoImplicit false

/-! ## Searching -/

namespace Markup

/-- The bytes of a text of ASCII characters. -/
def ascii (text : String) : Bytes :=
  Utf8.encode text

/-- Space, tab, carriage return and line feed. -/
def isSpace (b : UInt8) : Bool :=
  b == 0x20 || b == 0x09 || b == 0x0D || b == 0x0A

def isQuote (b : UInt8) : Bool :=
  b == 0x22 || b == 0x27

/-- What comes before the first place of some delimiter, and what comes behind it. -/
def cut (delimiter : Bytes) : Bytes → Option (Bytes × Bytes)
  | [] => if delimiter.isEmpty then some ([], []) else none
  | b :: rest =>
    if delimiter.isPrefixOf (b :: rest) then some ([], (b :: rest).drop delimiter.length)
    else (cut delimiter rest).map fun (before, behind) => (b :: before, behind)

/-- What follows the front of a text, if the text starts with it. -/
def after (front text : Bytes) : Option Bytes :=
  if front.isPrefixOf text then some (text.drop front.length) else none

/-- A text without the white space at its end. -/
def trimEnd (text : Bytes) : Bytes :=
  (text.reverse.dropWhile isSpace).reverse

/-- What comes before the first `>` that is not in quotes, and what comes behind it. The first
argument is the quote that is open. -/
def cutTag : Option UInt8 → Bytes → Option (Bytes × Bytes)
  | _, [] => none
  | none, b :: rest =>
    if b = 0x3E then some ([], rest)
    else
      (cutTag (if isQuote b then some b else none) rest).map fun (before, behind) =>
        (b :: before, behind)
  | some quote, b :: rest =>
    (cutTag (if b = quote then none else some quote) rest).map fun (before, behind) =>
      (b :: before, behind)

/-- What comes before the `>` that closes a declaration, and what comes behind it. The first
argument counts the `<` that are open inside. -/
def cutBalanced : Nat → Bytes → Option (Bytes × Bytes)
  | _, [] => none
  | depth, b :: rest =>
    let further (depth : Nat) := (cutBalanced depth rest).map fun (before, behind) =>
      (b :: before, behind)
    if b = 0x3C then further (depth + 1)
    else if b = 0x3E then
      match depth with
      | 0 => some ([], rest)
      | depth + 1 => further depth
    else further depth

end Markup

/-! ## Pieces -/

/-- A start tag: its name, and what follows the name. -/
structure Tag where
  name : Bytes
  attributes : Bytes
deriving Repr, DecidableEq

/-- A piece of an XML text. -/
inductive Markup where
  | text (content : Bytes)
  | reference (name : Bytes)
  | cdata (content : Bytes)
  | comment (content : Bytes)
  | doctype (content : Bytes)
  | declaration
  | instruction (target : Bytes)
  | opening (tag : Tag)
  | empty (tag : Tag)
  | closing (name : Bytes)
deriving Repr, DecidableEq

namespace Markup

/-- A start tag from what is between its brackets. The name goes up to the first white space. -/
def tag (content : Bytes) : Tag :=
  ⟨content.takeWhile (!isSpace ·), content.dropWhile (!isSpace ·)⟩

/-- A tag from what is between its brackets. A slash before the closing bracket makes an element
without content. -/
def tagPiece (content : Bytes) : Markup :=
  match content.getLast? with
  | some 0x2F => .empty (tag content.dropLast)
  | _ => .opening (tag content)

/-- The name of an end tag. White space at its end is not part of it, unless there is nothing
else. -/
def closingName (content : Bytes) : Bytes :=
  if content.all isSpace then content else trimEnd content

/-- The piece behind `<!`. -/
def declared (text : Bytes) : Option (Markup × Bytes) :=
  match text with
  | 0x5B :: _ => do
    let (content, rest) ← cut (ascii "]]>") (← after (ascii "[CDATA[") text)
    some (.cdata content, rest)
  | 0x2D :: _ => do
    let (content, rest) ← cut (ascii "-->") (← after (ascii "--") text)
    some (.comment content, rest)
  | _ => do
    let (content, rest) ← cutBalanced 0 text
    let keyword := ascii "DOCTYPE"
    let content' := (content.drop keyword.length).dropWhile isSpace
    let isDoctype := (content.take keyword.length).map upper == keyword
    if isDoctype && !content'.isEmpty then some (.doctype content', rest) else none
where
  /-- An ASCII letter in upper case. -/
  upper (b : UInt8) : UInt8 := if 0x61 ≤ b ∧ b ≤ 0x7A then b - 0x20 else b

/-- The piece behind `<?`. The question mark of `?>` is not the one of `<?`. -/
def instructed (text : Bytes) : Option (Markup × Bytes) := do
  if text.head? = some 0x3E then none
  else
    let (content, rest) ← cut (ascii "?>") text
    let target := content.takeWhile (!isSpace ·)
    some (if target = ascii "xml" then .declaration else .instruction target, rest)

/-- The piece behind `<`. -/
def bracketed (text : Bytes) : Option (Markup × Bytes) :=
  match text with
  | 0x21 :: rest => declared rest
  | 0x3F :: rest => instructed rest
  | 0x2F :: rest => (cutTag none rest).map fun (name, rest) => (.closing (closingName name), rest)
  | _ => (cutTag none text).map fun (content, rest) => (tagPiece content, rest)

/-- The piece behind `&`. -/
def referred (text : Bytes) : Option (Markup × Bytes) :=
  let name := text.takeWhile fun b => b != 0x3B && b != 0x26 && b != 0x3C
  match text.drop name.length with
  | 0x3B :: rest => some (.reference name, rest)
  | _ => none

/-- Whether a byte may stand in character data. -/
def isText (b : UInt8) : Bool :=
  b != 0x3C && b != 0x26

/-- The first piece of a text that is not empty, and what follows it; nothing if the text breaks
the grammar there. -/
def next (text : Bytes) : Option (Markup × Bytes) :=
  match text with
  | 0x3C :: rest => bracketed rest
  | 0x26 :: rest => referred rest
  | _ => some (.text (text.takeWhile isText), text.dropWhile isText)

end Markup

end BinaryXml
