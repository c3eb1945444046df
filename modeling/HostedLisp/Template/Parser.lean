import HostedLisp.Failure
import HostedLisp.Template.Tag

namespace HostedLisp.Template

open Text

/-- The parts of a template. -/
inductive Part where
  | text (value : String)
  | value (key : String) (escaped : Bool)
  | group (key : String) (inverted : Bool) (body : List Part)

/-- Why a template cannot be read. -/
inductive Fault where
  | wrongEnd (position : Nat) (found : String) (expected : Option String)
  | incompleteDelimiters
deriving Repr, DecidableEq

def tagText (mark key : String) : String :=
  "\x7b\x7b" ++ mark ++ key ++ "\x7d\x7d"

def Fault.failure : Fault → Failure
  | wrongEnd position found expected =>
      .foreign "ParsingError" ("Section end tag mismatch at position " ++ toString position ++
        ". Found " ++ tagText "/" found ++ ", expected " ++
        (match expected with
          | some key => tagText "/" key
          | none => tagText "#" found))
  | incompleteDelimiters => .outOfRange "list"

/-- A section that is open: its key and kind, and the parts before it in reverse. -/
structure OpenSection where
  key : String
  inverted : Bool
  outer : List Part

/-- What reading carries along: the delimiters, the position in the template, whether a line
begins there, the open sections, and the parts of the innermost one in reverse. -/
structure Progress where
  delimiters : Delimiters
  position : Nat
  atLineStart : Bool
  sections : List OpenSection
  parts : List Part

namespace Progress

def start : Progress := ⟨⟨"\x7b\x7b".toList, "\x7d\x7d".toList⟩, 0, true, [], []⟩

/-- Adds a text, if it is not empty. -/
def addText (p : Progress) (s : List Char) : Progress :=
  if s.isEmpty then p else { p with parts := .text (String.ofList s) :: p.parts }

end Progress

def endsLine (c : Char) : Bool := c == '\r' || c == '\n'

def atLineEnd (s : List Char) : Bool := (s.head?.map endsLine).getD true

/-- Skips one line end. -/
def skipLineEnd (s : List Char) : List Char :=
  let s := match s with
    | '\r' :: rest => rest
    | s => s
  match s with
  | '\n' :: rest => rest
  | s => s

/-- The words of a text between blanks. -/
def words (s : List Char) : List (List Char) :=
  (s.splitBy fun a b => isBlank a == isBlank b).filter fun w => !((w.head?.map isBlank).getD true)

/-- The effect of a tag that ends at a position. -/
def applyTag (t : Tag) (tagEnd : Nat) (p : Progress) : Except Fault Progress :=
  let key := String.ofList t.key
  match t.kind with
  | .plain => .ok { p with parts := .value key true :: p.parts }
  | .raw => .ok { p with parts := .value key false :: p.parts }
  | .comment => .ok p
  | .insertion => .ok p
  | .delimiters =>
      match words t.key with
      | opening :: closing :: _ => .ok { p with delimiters := ⟨opening, closing⟩ }
      | _ => .error .incompleteDelimiters
  | .openSection => .ok { p with sections := ⟨key, false, p.parts⟩ :: p.sections, parts := [] }
  | .openInverted => .ok { p with sections := ⟨key, true, p.parts⟩ :: p.sections, parts := [] }
  | .close =>
      match p.sections with
      | [] => .error (.wrongEnd tagEnd key none)
      | o :: outer =>
          if o.key = key then
            .ok { p with
              sections := outer
              parts := .group key o.inverted p.parts.reverse :: o.outer }
          else
            .error (.wrongEnd tagEnd key (some o.key))

/-- The last character of a text as the start of a line, or what held before an empty text. -/
def lineStartAfter (before : Bool) (s : List Char) : Bool :=
  (s.getLast?.map endsLine).getD before

/-- Reads the rest of a template. -/
def parseFrom : Nat → List Char → Progress → Except Fault (List Part)
  | 0, _, p => .ok p.parts.reverse
  | fuel + 1, s, p =>
      match findTag? p.delimiters s with
      | none => .ok (p.addText s).parts.reverse
      | some found =>
          let beginsLine := lineStartAfter p.atLineStart found.before
          let alone := beginsLine && atLineEnd found.tag.rest && !found.tag.kind.isValue
          let rest := if alone then skipLineEnd found.tag.rest else found.tag.rest
          let literal := if alone then found.before else found.before ++ found.indent
          let tagEnd := p.position + (s.length - found.tag.rest.length)
          let after : Progress :=
            { p.addText literal with
              position := p.position + (s.length - rest.length)
              atLineStart := alone && rest.length != found.tag.rest.length }
          (applyTag found.tag tagEnd after).bind (parseFrom fuel rest)

def parse (template : String) : Except Fault (List Part) :=
  parseFrom (template.length + 1) template.toList .start

end HostedLisp.Template
