import HostedLisp.Yaml.Token

namespace HostedLisp.Yaml

/-- A place where a key could begin: the number of tokens before it, and where it stands. A
required one has to become a key. -/
structure KeyPlace where
  number : Nat
  required : Bool
  index : Nat
  line : Nat
  column : Nat
deriving Repr, DecidableEq

/-- A key that nothing marks: the number of tokens before it, and whether it opens a mapping. -/
structure PlainKey where
  number : Nat
  opensMapping : Bool
deriving Repr, DecidableEq

/-- The state of reading: the place, the tokens so far in reverse, the columns of the open
blocks, and the places for keys, one for each open bracket and one for the blocks. -/
structure Lexing where
  cursor : Cursor
  tokens : List Token
  keys : List PlainKey
  indent : Int
  outerIndents : List Int
  mayBeginKey : Bool
  place : Option KeyPlace
  outerPlaces : List (Option KeyPlace)
deriving Repr, DecidableEq

namespace Lexing

/-- The start of a text; a byte order mark is skipped. -/
def start (s : List Char) : Lexing :=
  let c := Cursor.start s
  ⟨if c.peek == '\uFEFF' then c.step else c, [], [], -1, [], true, none, []⟩

/-- Whether brackets are open; columns do not matter inside them. -/
def inFlow (l : Lexing) : Bool := !l.outerPlaces.isEmpty

def push (l : Lexing) (t : Token) : Lexing := { l with tokens := t :: l.tokens }

/-- Moves past characters. -/
def skip (l : Lexing) (n : Nat) : Lexing := { l with cursor := l.cursor.skip n }

/-- Moves to the next token: past spaces, comments and line ends. A key may begin on a new line. -/
def skipGaps : Nat → Lexing → Lexing
  | 0, l => l
  | fuel + 1, l =>
      let c := l.cursor.skipSpaces.skipComment
      match c.lineBreak? with
      | some (_, c) =>
          skipGaps fuel { l with cursor := c, mayBeginKey := l.mayBeginKey || !l.inFlow }
      | none => { l with cursor := c }

/-- Whether a key that began at a place could still end here: a key stands on one line and is
not long. -/
def KeyPlace.isFresh (p : KeyPlace) (c : Cursor) : Bool :=
  p.line == c.line && c.index - p.index ≤ 1024

/-- Drops a place that the text has left behind; a required one must not be. -/
def freshPlace? (c : Cursor) : Option KeyPlace → Option (Option KeyPlace)
  | none => some none
  | some p => if KeyPlace.isFresh p c then some (some p) else if p.required then none else some none

/-- Drops all places that the text has left behind. -/
def dropStale (l : Lexing) : Option Lexing := do
  let place ← freshPlace? l.cursor l.place
  let outer ← l.outerPlaces.mapM (freshPlace? l.cursor)
  return { l with place := place, outerPlaces := outer }

/-- Closes the blocks that are indented by more than a column. -/
def closeBlocks (column : Int) (l : Lexing) : Lexing :=
  if l.inFlow then l else go l.indent l.outerIndents l
where
  /-- Closes the innermost block. -/
  go (indent : Int) (outer : List Int) (l : Lexing) : Lexing :=
    if column < indent then
      match outer with
      | next :: outer => go next outer (l.push .blockEnd)
      | [] => { l with indent := indent, outerIndents := [] }
    else { l with indent := indent, outerIndents := outer }

/-- Forgets the place for a key, which must not be a required one. -/
def forgetPlace (l : Lexing) : Option Lexing :=
  match l.place with
  | some p => if p.required then none else some { l with place := none }
  | none => some l

/-- Remembers that a key may begin here, if one may. -/
def rememberPlace (l : Lexing) : Option Lexing :=
  if l.mayBeginKey then do
    let l ← l.forgetPlace
    let c := l.cursor
    let required := !l.inFlow && l.indent == c.column
    return { l with place := some ⟨l.tokens.length, required, c.index, c.line, c.column⟩ }
  else some l

/-- Whether a block at a column would be inside the innermost one. -/
def opensBlock (l : Lexing) (column : Nat) : Bool := l.indent < column

/-- The state inside a block that is opened at a column. -/
def indentTo (l : Lexing) (column : Nat) : Lexing :=
  if l.opensBlock column then
    { l with indent := column, outerIndents := l.indent :: l.outerIndents }
  else l

/-- Opens a block here by a token, unless brackets are open or the block is open already. It
has to stand where a key may begin. -/
def openBlock (l : Lexing) (t : Token) : Option Lexing :=
  if l.inFlow then some l
  else if l.mayBeginKey then
    let column := l.cursor.column
    some (if l.opensBlock column then (l.indentTo column).push t else l)
  else none

/-- Adds a token for some characters. -/
def mark (l : Lexing) (t : Token) (width : Nat) : Lexing := (l.push t).skip width

/-- Sets whether a key may begin at the next token. -/
def allow (l : Lexing) (b : Bool) : Lexing := { l with mayBeginKey := b }

def directive? (l : Lexing) : Option Lexing := do
  let l ← (l.closeBlocks (-1)).forgetPlace
  let (d, c) ← l.cursor.directive?
  return { (l.push (.directive d)).allow false with cursor := c }

def documentMark? (l : Lexing) (t : Token) : Option Lexing := do
  let l ← (l.closeBlocks (-1)).forgetPlace
  return (l.allow false).mark t 3

def opening? (l : Lexing) (b : Bracket) : Option Lexing := do
  let l ← l.rememberPlace
  let l := { l with place := none, outerPlaces := l.place :: l.outerPlaces }
  return (l.allow true).mark (.opening b) 1

def closing? (l : Lexing) (b : Bracket) : Option Lexing := do
  let l ← l.forgetPlace
  match l.outerPlaces with
  | place :: outer =>
      return ({ l with place := place, outerPlaces := outer }.allow false).mark (.closing b) 1
  | [] => none

def comma? (l : Lexing) : Option Lexing := do
  let l ← l.forgetPlace
  return (l.allow true).mark .comma 1

/-- Reads the mark of an item. -/
def item? (l : Lexing) : Option Lexing := do
  let l ← (← l.openBlock .blockSequence).forgetPlace
  return (l.allow true).mark .item 1

/-- Reads the mark of a key. -/
def key? (l : Lexing) : Option Lexing := do
  let l ← (← l.openBlock .blockMapping).forgetPlace
  return (l.allow !l.inFlow).mark .key 1

/-- Reads the mark of a value. What stands at the place for a key becomes one; without such a
place the key is empty. -/
def value? (l : Lexing) : Option Lexing :=
  match l.place with
  | some p =>
      let opens := !l.inFlow && l.opensBlock p.column
      let l := if opens then l.indentTo p.column else l
      let l := { l with place := none, keys := ⟨p.number, opens⟩ :: l.keys }
      some ((l.allow false).mark .value 1)
  | none => do
      let l ← l.openBlock .blockMapping
      return (l.allow !l.inFlow).mark .value 1

/-- Adds a token that was read up to a place. A key may have begun with it. -/
def word? (l : Lexing) (r : Option (Token × Cursor)) : Option Lexing := do
  let l ← l.rememberPlace
  let (t, c) ← r
  return { (l.push t).allow false with cursor := c }

/-- Reads a block scalar. -/
def block? (fuel : Nat) (l : Lexing) : Option Lexing := do
  let l ← l.forgetPlace
  let (text, c) ← blockScalar fuel l.indent l.cursor
  return { (l.push (.scalar false text)).allow true with cursor := c }

/-- Reads a plain scalar. A key may begin after it when it ended with a line. -/
def plain? (fuel : Nat) (l : Lexing) : Option Lexing := do
  let l ← l.rememberPlace
  let (text, broken, c) := plainScalar l.inFlow (l.indent + 1) fuel [] false l.cursor
  return { (l.push (.scalar true text)).allow broken with cursor := c }

/-- Ends the text. -/
def finish? (l : Lexing) : Option Lexing := (l.closeBlocks (-1)).forgetPlace

def beginsPlain (l : Lexing) : Bool :=
  let d := l.cursor.peek
  let next := l.cursor.ahead 1
  (!isGapChar d && !"-?:,[]#&*!|>'\"%@\x60\x7b\x7d".toList.contains d) ||
    (!isGapChar next && (d == '-' || (!l.inFlow && (d == '?' || d == ':'))))

/-- Reads the token that begins here. -/
def token? (fuel : Nat) (l : Lexing) : Option Lexing :=
  let c := l.cursor
  let d := c.peek
  let apart := isGapChar (c.ahead 1)
  if d == '%' && c.column == 0 then l.directive?
  else if c.column == 0 && c.atMark '-' then l.documentMark? .documentStart
  else if c.column == 0 && c.atMark '.' then l.documentMark? .documentEnd
  else if d == '[' then l.opening? .square
  else if d == '\x7b' then l.opening? .curly
  else if d == ']' then l.closing? .square
  else if d == '\x7d' then l.closing? .curly
  else if d == ',' then l.comma?
  else if d == '-' && apart then l.item?
  else if d == '?' && (l.inFlow || apart) then l.key?
  else if d == ':' && (l.inFlow || apart) then l.value?
  else if d == '*' then l.word? (c.step.anchorName?.map fun r => (.reference r.1, r.2))
  else if d == '&' then l.word? (c.step.anchorName?.map fun r => (.anchor r.1, r.2))
  else if d == '!' then l.word? (c.tag?.map fun r => (.tag r.1, r.2))
  else if (d == '|' || d == '>') && !l.inFlow then l.block? fuel
  else if d == '\'' || d == '"' then
    l.word? ((quotedScalar fuel c).map fun r => (.scalar false r.1, r.2))
  else if l.beginsPlain then l.plain? fuel
  else none

/-- Reads the tokens from here on. -/
def run : Nat → Lexing → Option Lexing
  | 0, _ => none
  | fuel + 1, l => do
      let l ← (l.skipGaps (fuel + 1)).dropStale
      let l := l.closeBlocks l.cursor.column
      if l.cursor.peek == endMark then l.finish? else run fuel (← l.token? (fuel + 1))

/-- The marks before a token of the given number. -/
def marksBefore (keys : List PlainKey) (number : Nat) : List Token :=
  match keys.find? (fun k => k.number == number) with
  | some k => if k.opensMapping then [.blockMapping, .key] else [.key]
  | none => []

/-- The tokens in order, with the marks before keys among them. -/
def result (l : Lexing) : List Token :=
  l.tokens.reverse.zipIdx.flatMap fun (t, i) => marksBefore l.keys i ++ [t]

end Lexing

/-- The tokens of a text, if it is well formed and holds only characters that are allowed. -/
def tokens? (s : List Char) : Option (List Token) :=
  if s.all isAllowed then ((Lexing.start s).run (s.length + 2)).map Lexing.result else none

end HostedLisp.Yaml
