import HostedLisp.Text.Blank

namespace HostedLisp.Template

open Text

/-- The marks around tags. -/
structure Delimiters where
  opening : List Char
  closing : List Char
deriving Repr, DecidableEq

/-- The kinds of tags. -/
inductive TagKind where
  | plain
  | raw
  | openSection
  | openInverted
  | close
  | comment
  | insertion
  | delimiters
deriving Repr, DecidableEq

/-- The kind that a mark in front of the key stands for. -/
def markKind? : Char → Option TagKind
  | '!' => some .comment
  | '>' => some .insertion
  | '&' => some .raw
  | '/' => some .close
  | '#' => some .openSection
  | '^' => some .openInverted
  | _ => none

def TagKind.isValue : TagKind → Bool
  | plain => true
  | raw => true
  | _ => false

/-- A tag: its kind, its key, and the characters after it. -/
structure Tag where
  kind : TagKind
  key : List Char
  rest : List Char
deriving Repr, DecidableEq

/-- The characters after a part that a text begins with. -/
def afterPart? (part s : List Char) : Option (List Char) :=
  if part.isPrefixOf s then some (s.drop part.length) else none

/-- The characters after the given parts, each of which may have blanks in front. -/
def afterParts? : List (List Char) → List Char → Option (List Char)
  | [], s => some s
  | part :: parts, s => (afterPart? part (trimLeft s)).bind (afterParts? parts)

/-- All ways of skipping blanks at the start of a text, the longest first. -/
def skips : List Char → List (List Char)
  | [] => [[]]
  | c :: rest => if isBlank c then skips rest ++ [c :: rest] else [c :: rest]

/-- The shortest nonempty start of a text that has only allowed characters and is followed by
the given parts. -/
def shortest? (allowed : Char → Bool) (parts : List (List Char)) :
    List Char → Option (List Char × List Char)
  | [] => none
  | c :: rest =>
      if !allowed c then none
      else
        match afterParts? parts rest with
        | some after => some ([c], after)
        | none => (shortest? allowed parts rest).map fun r => (c :: r.1, r.2)

/-- A key after blanks, followed by the given parts; as many blanks as possible are left out of
the key. -/
def keyAfterBlanks? (allowed : Char → Bool) (parts : List (List Char)) (kind : TagKind)
    (s : List Char) : Option Tag :=
  (skips s).findSome? fun s' => (shortest? allowed parts s').map fun r => ⟨kind, r.1, r.2⟩

/-- Characters of one line. -/
def isInline (c : Char) : Bool := c != '\n'

/-- A tag with the given mark in front and, for the two kinds that have one, its mark behind. -/
def marked? (d : Delimiters) (s : List Char) : Option Tag :=
  match s with
  | '=' :: rest => keyAfterBlanks? isInline [['='], d.closing] .delimiters rest
  | '\x7b' :: rest => keyAfterBlanks? isInline [['\x7d'], d.closing] .raw rest
  | _ => none

/-- A tag that is a key after an optional mark. -/
def keyed? (d : Delimiters) (s : List Char) : Option Tag :=
  let anyChar (_ : Char) : Bool := true
  let withMark := match s with
    | c :: rest => (markKind? c).bind fun kind => keyAfterBlanks? anyChar [d.closing] kind rest
    | [] => none
  withMark.or (keyAfterBlanks? anyChar [d.closing] .plain s)

/-- The tag after an opening delimiter. -/
def tagBody? (d : Delimiters) (s : List Char) : Option Tag :=
  (skips s).findSome? fun s' => (marked? d s').or (keyed? d s')

/-- A tag found in a text: the text before it, the blanks of the same line right before it, and
the tag. -/
structure Found where
  before : List Char
  indent : List Char
  tag : Tag
deriving Repr, DecidableEq

/-- Blanks within a line. -/
def isIndent (c : Char) : Bool := c == ' ' || c == '\t'

/-- The tag that begins here, after blanks. -/
def tagHere? (d : Delimiters) (s : List Char) : Option Found :=
  match afterPart? d.opening (s.dropWhile isIndent) with
  | some body => (tagBody? d body).map fun t => ⟨[], s.takeWhile isIndent, t⟩
  | none => none

/-- The first tag in a text. -/
def findTag? (d : Delimiters) : List Char → Option Found
  | [] => none
  | c :: rest =>
      match tagHere? d (c :: rest) with
      | some found => some found
      | none => (findTag? d rest).map fun found => { found with before := c :: found.before }

end HostedLisp.Template
