import HostedLisp.Yaml.Style

namespace HostedLisp.Yaml

def endMark : Char := '\x00'

/-- A place in a text. -/
structure Cursor where
  rest : List Char
  index : Nat
  line : Nat
  column : Nat
deriving Repr, DecidableEq

/-- Whether a character may occur in a text. -/
def isAllowed (c : Char) : Bool :=
  let n := c.toNat
  n == 9 || n == 10 || n == 13 || (0x20 ≤ n && n ≤ 0x7E) || n == 0x85 ||
    (0xA0 ≤ n && n ≤ 0xD7FF) || (0xE000 ≤ n && n ≤ 0xFFFD) || 0x10000 ≤ n

/-- Characters that end a line when a text is read. -/
def isLineEnd (c : Char) : Bool := c == '\r' || isBreak c

/-- Characters that end a line, and the end mark. -/
def isLineEndOrEnd (c : Char) : Bool := c == endMark || isLineEnd c

/-- Blanks within a line. -/
def isBlank (c : Char) : Bool := c == ' ' || c == '\t'

namespace Cursor

def start (s : List Char) : Cursor := ⟨s, 0, 0, 0⟩

/-- The character a number of places ahead. -/
def ahead (c : Cursor) (n : Nat) : Char := (c.rest[n]?).getD endMark

/-- The character here. -/
def peek (c : Cursor) : Char := c.ahead 0

/-- Moves past one character. A line ends after its last character, and the byte order mark
takes no column. -/
def step (c : Cursor) : Cursor :=
  match c.rest with
  | [] => c
  | d :: rest =>
      if isBreak d || (d == '\r' && rest.head? != some '\n') then
        ⟨rest, c.index + 1, c.line + 1, 0⟩
      else
        ⟨rest, c.index + 1, c.line, if d.toNat == 0xFEFF then c.column else c.column + 1⟩

/-- Moves past a number of characters. -/
def skip (c : Cursor) : Nat → Cursor
  | 0 => c
  | n + 1 => c.step.skip n

/-- The characters from here on that a test holds for, and the place after them. -/
def takeWhile (c : Cursor) (p : Char → Bool) : List Char × Cursor :=
  let run := c.rest.takeWhile p
  (run, c.skip run.length)

/-- The place after the characters that a test holds for. -/
def skipWhile (c : Cursor) (p : Char → Bool) : Cursor := (c.takeWhile p).2

/-- Moves past spaces. -/
def skipSpaces (c : Cursor) : Cursor := c.skipWhile (· == ' ')

def skipSpacesTo (c : Cursor) (column : Nat) : Cursor :=
  let run := (c.rest.takeWhile (· == ' ')).take (column - c.column)
  c.skip run.length

/-- Reads a line end, which counts as one newline except for the two separators. -/
def lineBreak? (c : Cursor) : Option (Char × Cursor) :=
  let d := c.peek
  if d == '\r' && c.ahead 1 == '\n' then some ('\n', c.skip 2)
  else if d == '\r' || d == '\n' || d.toNat == 0x85 then some ('\n', c.step)
  else if isBreak d then some (d, c.step)
  else none

/-- Moves past a line end, if there is one. -/
def skipLineBreak (c : Cursor) : Cursor :=
  match c.lineBreak? with
  | some (_, c) => c
  | none => c

/-- Moves past a comment, if one begins here. -/
def skipComment (c : Cursor) : Cursor :=
  if c.peek == '#' then c.skipWhile fun d => !isLineEndOrEnd d else c

/-- Whether a line begins with three characters that separate documents. -/
def atMark (c : Cursor) (mark : Char) : Bool :=
  c.peek == mark && c.ahead 1 == mark && c.ahead 2 == mark && isGapChar (c.ahead 3)

/-- Whether the marks between documents stand here. -/
def atSeparator (c : Cursor) : Bool := c.atMark '-' || c.atMark '.'

end Cursor

end HostedLisp.Yaml
