import HostedLisp.Text.Utf8
import HostedLisp.Yaml.ScalarText

namespace HostedLisp.Yaml

/-- The two kinds of brackets. -/
inductive Bracket where
  | square
  | curly
deriving Repr, DecidableEq

/-- A tag as it is written: its handle, if it has one, and the text after it. -/
structure TagName where
  handle : Option String
  suffix : String
deriving Repr, DecidableEq

/-- What a line before a document says: the version of the format, or what a handle stands for. -/
inductive Directive where
  | version (major : Nat)
  | handle (name stem : String)
  | unknown
deriving Repr, DecidableEq

/-- Tokens. A block is opened by the column of its first item and closed by a smaller one, so
its ends have no characters of their own; nor has the mark before a key that nothing marks. -/
inductive Token where
  | directive (directive : Directive)
  | documentStart
  | documentEnd
  | blockSequence
  | blockMapping
  | blockEnd
  | opening (bracket : Bracket)
  | closing (bracket : Bracket)
  | item
  | comma
  | key
  | value
  | anchor (name : String)
  | reference (name : String)
  | tag (name : TagName)
  | scalar (plain : Bool) (text : List Char)
deriving Repr, DecidableEq

/-- Characters of names. -/
def isNameChar (c : Char) : Bool := c.isAlphanum || c == '-' || c == '_'

def isTagChar (c : Char) : Bool :=
  c.isAlphanum || "-;/?:@&=+$,_.!~*'()[]%".toList.contains c

/-- Whether a character is a space, a line end or the end mark. -/
def isSpaceOrEnd (c : Char) : Bool := c == ' ' || isLineEndOrEnd c

/-- The bytes of the escapes that a text begins with, and the rest of it. -/
def escapedBytes : List Char → Option (List UInt8 × List Char)
  | '%' :: a :: b :: rest => do
      let high ← Json.hexValue? a
      let low ← Json.hexValue? b
      let (bytes, rest) ← escapedBytes rest
      return (UInt8.ofNat (16 * high + low) :: bytes, rest)
  | '%' :: _ => none
  | s => some ([], s)

/-- A text whose escapes are replaced by the characters that their bytes spell. -/
def unescaped? : Nat → List Char → Option (List Char)
  | 0, _ => none
  | _ + 1, [] => some []
  | fuel + 1, c :: rest => do
      if c = '%' then
        let (bytes, rest) ← escapedBytes (c :: rest)
        let text ← Text.wholeUtf8? bytes
        return text ++ (← unescaped? fuel rest)
      else return c :: (← unescaped? fuel rest)

namespace Cursor

def name? (c : Cursor) : Option (String × Cursor) :=
  let (run, c) := c.takeWhile isNameChar
  if run.isEmpty then none else some (String.ofList run, c)

def tagText? (c : Cursor) : Option (String × Cursor) :=
  let (run, c) := c.takeWhile isTagChar
  if run.isEmpty then none
  else (unescaped? (run.length + 1) run).map fun text => (String.ofList text, c)

/-- Reads the handle of a tag: one mark, or a name between two. -/
def handle? (c : Cursor) : Option (String × Cursor) :=
  if c.peek != '!' then none
  else if c.ahead 1 == ' ' then some ("!", c.step)
  else
    let (run, c) := c.step.takeWhile isNameChar
    if c.peek == '!' then some ("!" ++ String.ofList run ++ "!", c.step) else none

/-- Reads a tag. One between angle brackets is complete, and a mark alone is the tag of things
that are not plain. -/
def tag? (c : Cursor) : Option (TagName × Cursor) := do
  let (name, c) ←
    if c.ahead 1 == '<' then do
      let (suffix, c) ← (c.skip 2).tagText?
      if c.peek == '>' then some (TagName.mk none suffix, c.step) else none
    else if isGapChar (c.ahead 1) then some (⟨none, "!"⟩, c.step)
    else do
      let word := c.step.rest.takeWhile fun d => !isSpaceOrEnd d
      let (handle, c) ← if word.contains '!' then c.handle? else some ("!", c.step)
      let (suffix, c) ← c.tagText?
      some (TagName.mk (some handle) suffix, c)
  if isSpaceOrEnd c.peek then return (name, c) else none

/-- Reads the name of an anchor, or of a reference to one, after its mark. -/
def anchorName? (c : Cursor) : Option (String × Cursor) := do
  let (name, c) ← c.name?
  if isGapChar c.peek || "?:,]%@\x60\x7d".toList.contains c.peek then return (name, c) else none

/-- Reads digits. -/
def number? (c : Cursor) : Option (Nat × Cursor) :=
  let (run, c) := c.takeWhile Number.isDigit
  if run.isEmpty then none else some (Number.digitsValue run, c)

/-- Reads what a directive says, after its name. -/
def directiveBody? (name : String) (c : Cursor) : Option (Directive × Cursor) := do
  if name = "YAML" then
    let (major, c) ← c.skipSpaces.number?
    if c.peek != '.' then none
    else
      let (_, c) ← c.step.number?
      if isSpaceOrEnd c.peek then return (.version major, c) else none
  else if name = "TAG" then
    let (handle, c) ← c.skipSpaces.handle?
    if c.peek != ' ' then none
    else
      let (stem, c) ← c.skipSpaces.tagText?
      if isSpaceOrEnd c.peek then return (.handle handle stem, c) else none
  else return (.unknown, c.skipWhile fun d => !isLineEndOrEnd d)

/-- Reads a directive and the end of its line. -/
def directive? (c : Cursor) : Option (Directive × Cursor) := do
  let (name, c) ← c.step.name?
  if isSpaceOrEnd c.peek then
    let (d, c) ← c.directiveBody? name
    return (d, ← ignoredLine c)
  else none

end Cursor

end HostedLisp.Yaml
