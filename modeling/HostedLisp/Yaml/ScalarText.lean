import HostedLisp.Json.Parser
import HostedLisp.Yaml.Cursor

namespace HostedLisp.Yaml

/-- A text that was read, and the place after it; nothing if the text is not well formed. -/
abbrev Scanned := Option (List Char × Cursor)

/-- The line ends after a first one in a quoted scalar, with the blanks around them removed. A
mark between documents is refused. -/
def quotedBreaks : Nat → Cursor → Scanned
  | 0, _ => none
  | fuel + 1, c =>
      if c.atSeparator then none
      else
        let c := c.skipWhile isBlank
        match c.lineBreak? with
        | some (b, c) => (quotedBreaks fuel c).map fun r => (b :: r.1, r.2)
        | none => some ([], c)

/-- A line end and the further ones after it: a single newline becomes a space. -/
def foldBreaks (first : Char) (further : List Char) : List Char :=
  if first != '\n' then first :: further else if further.isEmpty then [' '] else further

/-- The blanks in a quoted scalar; those around line ends are folded. -/
def quotedSpaces (fuel : Nat) (c : Cursor) : Scanned :=
  let (blanks, c) := c.takeWhile isBlank
  if c.peek == endMark then none
  else
    match c.lineBreak? with
    | some (b, c) => (quotedBreaks fuel c).map fun r => (foldBreaks b r.1, r.2)
    | none => some (blanks, c)

/-- The characters with escapes of one letter. -/
def letterEscapes : List (Char × Nat) :=
  [('0', 0), ('a', 7), ('b', 8), ('t', 9), ('\t', 9), ('n', 10), ('v', 11), ('f', 12), ('r', 13),
    ('e', 0x1B), (' ', 0x20), ('"', 0x22), ('\\', 0x5C), ('/', 0x2F), ('N', 0x85), ('_', 0xA0),
    ('L', 0x2028), ('P', 0x2029)]

/-- The number of hexadecimal digits after an escape letter. -/
def escapeWidth? : Char → Option Nat
  | 'x' => some 2
  | 'u' => some 4
  | 'U' => some 8
  | _ => none

/-- The number that hexadecimal digits spell. -/
def hexNumber? (s : List Char) : Option Nat :=
  s.foldlM (fun n c => (Json.hexValue? c).map fun d => 16 * n + d) 0

/-- The text of an escape after its backslash. An escaped line end joins two lines. -/
def doubleEscape (fuel : Nat) (c : Cursor) : Scanned :=
  let d := c.peek
  match letterEscapes.find? (fun e => e.1 == d) with
  | some (_, n) => some ([Char.ofNat n], c.step)
  | none =>
      match escapeWidth? d with
      | some width =>
          let ds := c.step.rest.take width
          if ds.length == width then
            ((hexNumber? ds).filter (· < 0x110000)).map fun n =>
              ([Json.unitChar n], c.skip (width + 1))
          else none
      | none =>
          match c.lineBreak? with
          | some (_, c) => quotedBreaks fuel c
          | none => none

/-- Characters that are not plainly part of a quoted scalar. -/
def stopsQuoted (c : Char) : Bool :=
  c == '\'' || c == '"' || c == '\\' || isGapChar c

/-- The characters of a quoted scalar up to blanks, a line end or its end. -/
def quotedWord (double : Bool) : Nat → Cursor → Scanned
  | 0, _ => none
  | fuel + 1, c =>
      let (run, c) := c.takeWhile fun d => !stopsQuoted d
      let d := c.peek
      let more (s : List Char) (c : Cursor) : Scanned :=
        (quotedWord double fuel c).map fun r => (run ++ s ++ r.1, r.2)
      if !double && d == '\'' && c.ahead 1 == '\'' then more ['\''] (c.skip 2)
      else if (double && d == '\'') || (!double && (d == '"' || d == '\\')) then more [d] c.step
      else if double && d == '\\' then
        match doubleEscape fuel c.step with
        | some (s, c) => more s c
        | none => none
      else some (run, c)

/-- The rest of a quoted scalar after its first word, up to its closing quote. -/
def quotedRest (quote : Char) : Nat → Cursor → Scanned
  | 0, _ => none
  | fuel + 1, c =>
      if c.peek == quote then some ([], c.step)
      else
        match quotedSpaces fuel c with
        | none => none
        | some (blanks, c) =>
            match quotedWord (quote == '"') fuel c with
            | none => none
            | some (word, c) => (quotedRest quote fuel c).map fun r => (blanks ++ word ++ r.1, r.2)

def quotedScalar (fuel : Nat) (c : Cursor) : Scanned :=
  let quote := c.peek
  match quotedWord (quote == '"') fuel c.step with
  | none => none
  | some (word, c) => (quotedRest quote fuel c).map fun r => (word ++ r.1, r.2)

/-- What happens to the line ends after a block scalar. -/
inductive Chomping where
  | clip
  | strip
  | keep
deriving Repr, DecidableEq

/-- The chomping that a character stands for. -/
def chomping? (c : Char) : Option Chomping :=
  if c == '+' then some .keep else if c == '-' then some .strip else none

/-- The indentation that a digit stands for; zero is refused. -/
def increment? (c : Char) : Option Nat :=
  if Number.isDigit c && c != '0' then some (Number.digitValue c) else none

/-- The marks in the head of a block scalar: chomping and indentation, in either order. -/
def blockMarks (c : Cursor) : Option (Chomping × Option Nat × Cursor) :=
  let (chomp, increment, after) :=
    match chomping? c.peek with
    | some chomp =>
        match increment? (c.ahead 1) with
        | some n => (chomp, some n, c.skip 2)
        | none => (chomp, none, c.step)
    | none =>
        match increment? c.peek with
        | some n =>
            match chomping? (c.ahead 1) with
            | some chomp => (chomp, some n, c.skip 2)
            | none => (.clip, some n, c.step)
        | none => (.clip, none, c)
  if after.peek == ' ' || isLineEndOrEnd after.peek then some (chomp, increment, after) else none

/-- The rest of a line that may hold only a comment. -/
def ignoredLine (c : Cursor) : Option Cursor :=
  let c := c.skipSpaces.skipComment
  if isLineEndOrEnd c.peek then some c.skipLineBreak else none

/-- The empty lines before the first line of a block, with the greatest indentation seen. -/
def blockLead : Nat → Nat → Cursor → List Char × Nat × Cursor
  | 0, most, c => ([], most, c)
  | fuel + 1, most, c =>
      match c.lineBreak? with
      | some (b, c) =>
          let (bs, most, c) := blockLead fuel most c
          (b :: bs, most, c)
      | none =>
          if c.peek == ' ' then blockLead fuel (max most (c.column + 1)) c.step else ([], most, c)

/-- The line ends before the next line of a block, and its indentation. -/
def blockBreaks (indent : Nat) : Nat → Cursor → List Char × Cursor
  | 0, c => ([], c)
  | fuel + 1, c =>
      let c := c.skipSpacesTo indent
      match c.lineBreak? with
      | some (b, c) =>
          let (bs, c) := blockBreaks indent fuel c
          (b :: bs, c)
      | none => ([], c)

/-- The lines of a block from here on, where `pending` are the line ends before the next line.
The text comes with the last line end and the ones after it. -/
def blockLines (folded : Bool) (indent : Nat) :
    Nat → List Char → Cursor → List Char × List Char × List Char × Cursor
  | 0, pending, c => ([], [], pending, c)
  | fuel + 1, pending, c =>
      if c.column != indent || c.peek == endMark then ([], [], pending, c)
      else
        let plainStart := !isBlank c.peek
        let (line, c) := c.takeWhile fun d => !isLineEndOrEnd d
        let (lineEnd, c) := match c.lineBreak? with
          | some (b, c) => ([b], c)
          | none => ([], c)
        let (breaks, c) := blockBreaks indent fuel c
        if c.column == indent && c.peek != endMark then
          let joint :=
            if folded && lineEnd == ['\n'] && plainStart && !isBlank c.peek then
              if breaks.isEmpty then [' '] else []
            else lineEnd
          let (text, lastEnd, after, c) := blockLines folded indent fuel breaks c
          (pending ++ line ++ joint ++ text, lastEnd, after, c)
        else (pending ++ line, lineEnd, breaks, c)

/-- A block scalar from its mark on, inside a block of the given indentation. -/
def blockScalar (fuel : Nat) (outer : Int) (c : Cursor) : Scanned :=
  let folded := c.peek == '>'
  match blockMarks c.step with
  | none => none
  | some (chomp, increment, c) =>
      match ignoredLine c with
      | none => none
      | some c =>
          let least := (max 1 (outer + 1)).toNat
          let (indent, breaks, c) :=
            match increment with
            | some n =>
                let (breaks, c) := blockBreaks (least + n - 1) fuel c
                (least + n - 1, breaks, c)
            | none =>
                let (breaks, most, c) := blockLead fuel 0 c
                (max least most, breaks, c)
          let (text, lastEnd, after, c) := blockLines folded indent fuel breaks c
          let tail := match chomp with
            | .strip => []
            | .clip => lastEnd
            | .keep => lastEnd ++ after
          some (text ++ tail, c)

/-- Indicators that end a plain scalar in brackets. -/
def isFlowIndicator (c : Char) : Bool :=
  c == ',' || c == '[' || c == ']' || c == '\x7b' || c == '\x7d'

/-- The characters of a plain scalar up to a blank, a line end or an indicator. -/
def plainWord (inFlow : Bool) : List Char → List Char
  | [] => []
  | c :: rest =>
      let next := rest.head?.getD endMark
      let stops := isGapChar c ||
        (c == ':' && (isGapChar next || (inFlow && isFlowIndicator next))) ||
        (inFlow && (isFlowIndicator c || c == '?'))
      if stops then [] else c :: plainWord inFlow rest

/-- The line ends after a first one in a plain scalar; none if a mark between documents follows
one of them. -/
def plainBreaks : Nat → Cursor → Option (List Char) × Cursor
  | 0, c => (none, c)
  | fuel + 1, c =>
      if c.atSeparator then (none, c)
      else
        let c := c.skipSpaces
        match c.lineBreak? with
        | some (b, c) =>
            let (bs, c) := plainBreaks fuel c
            (bs.map (b :: ·), c)
        | none => (some [], c)

/-- What stands between two words of a plain scalar: spaces, or line ends that are folded. The
flag says whether a line end was passed. -/
def plainSpaces (fuel : Nat) (c : Cursor) : List Char × Bool × Cursor :=
  let (spaces, c) := c.takeWhile (· == ' ')
  match c.lineBreak? with
  | some (b, c) =>
      let (breaks, c) := plainBreaks fuel c
      match breaks with
      | some bs => (foldBreaks b bs, true, c)
      | none => ([], true, c)
  | none => (spaces, false, c)

/-- A plain scalar, with the spaces pending before its next word. The flag says whether the
scalar ended after a line end. -/
def plainScalar (inFlow : Bool) (indent : Int) :
    Nat → List Char → Bool → Cursor → List Char × Bool × Cursor
  | 0, _, broken, c => ([], broken, c)
  | fuel + 1, spaces, broken, c =>
      let word := if c.peek == '#' then [] else plainWord inFlow c.rest
      if word.isEmpty then ([], broken, c)
      else
        let (next, passed, c) := plainSpaces fuel (c.skip word.length)
        if next.isEmpty || c.peek == '#' || (!inFlow && (c.column : Int) < indent) then
          (spaces ++ word, passed, c)
        else
          let (text, broken, c) := plainScalar inFlow indent fuel next passed c
          (spaces ++ word ++ text, broken, c)

end HostedLisp.Yaml
