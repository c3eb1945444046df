import HostedLisp.Yaml.Style

namespace HostedLisp.Yaml

/-- A text being written: its column, whether the last thing written is white space, and whether
the line so far holds nothing but indentation and the indicators of nested blocks. -/
structure Pen where
  text : String
  column : Nat
  spaced : Bool
  leading : Bool

/-- The column after which scalars are folded. -/
def lineWidth : Nat := 80

namespace Pen

def start : Pen := ⟨"", 0, true, true⟩

/-- Writes characters of one line. -/
def put (p : Pen) (s : List Char) : Pen :=
  { p with text := p.text ++ String.ofList s, column := p.column + s.length }

def lineBreak (p : Pen) : Pen :=
  ⟨p.text ++ "\n", 0, true, true⟩

/-- Goes to the indentation, on a new line unless the current one holds nothing yet. -/
def goTo (p : Pen) (indent : Nat) : Pen :=
  let q := if !p.leading || indent < p.column || (p.column == indent && !p.spaced) then p.lineBreak
    else p
  if q.column < indent then
    { q.put (List.replicate (indent - q.column) ' ') with spaced := true }
  else q

/-- Writes an indicator, with a space in front if one is needed. A block indicator keeps the
line open for a nested block. -/
def indicator (p : Pen) (s : List Char) (needsSpace isBlock : Bool) : Pen :=
  let q := p.put (if p.spaced || !needsSpace then s else ' ' :: s)
  { q with spaced := false, leading := p.leading && isBlock }

/-- Marks that text was written. -/
def inText (p : Pen) : Pen := { p with spaced := false, leading := false }

end Pen

/-- The classes of characters that folding tells apart. -/
inductive CharClass where
  | space
  | lineEnd
  | other
deriving Repr, DecidableEq

def charClass (c : Char) : CharClass :=
  if c = ' ' then .space else if isBreak c then .lineEnd else .other

/-- A text in runs of characters of one class. -/
def runs (s : List Char) : List (List Char) :=
  s.splitBy fun a b => charClass a == charClass b

def runClass (run : List Char) : CharClass :=
  (run.head?.map charClass).getD .other

/-- Whether a line may be folded at a run: a single space beyond the line width. -/
def foldsAt (p : Pen) (run : List Char) : Bool :=
  run.length == 1 && lineWidth < p.column

/-- Writes a plain scalar. -/
def putPlain (p : Pen) (indent : Nat) (mayFold : Bool) (s : List Char) : Pen :=
  if s.isEmpty then p
  else
    let start := (if p.spaced then p else p.put [' ']).inText
    (runs s).foldl (fun q run =>
      if runClass run == .space && mayFold && foldsAt q run then (q.goTo indent).inText
      else q.put run) start

def doubleQuotes (s : List Char) : List Char :=
  s.flatMap fun c => if c = '\'' then ['\'', '\''] else [c]

/-- Writes the runs of a scalar between single quotes; the outer runs are not folded. -/
def putSingleRuns (indent : Nat) (mayFold : Bool) (isFirst : Bool) :
    List (List Char) → Pen → Pen
  | [], p => p
  | run :: rest, p =>
      let q := match runClass run with
        | .space =>
            if mayFold && !isFirst && !rest.isEmpty && foldsAt p run then p.goTo indent
            else p.put run
        | .lineEnd =>
            let opened := if run.head? = some '\n' then p.lineBreak else p
            (run.foldl (fun q _ => q.lineBreak) opened).goTo indent
        | .other => p.put (doubleQuotes run)
      putSingleRuns indent mayFold false rest q

/-- Writes a scalar between single quotes. -/
def putSingle (p : Pen) (indent : Nat) (mayFold : Bool) (s : List Char) : Pen :=
  (putSingleRuns indent mayFold true (runs s) (p.indicator ['\''] true false)).indicator ['\'']
    false false

/-- Folds the line between double quotes; a space that follows is escaped. -/
def foldDouble (p : Pen) (indent : Nat) (pending : List Char) (spaceFollows : Bool) : Pen :=
  let q := ((p.put (pending ++ ['\\'])).goTo indent).inText
  if spaceFollows then q.put ['\\'] else q

/-- Writes the characters of a scalar between double quotes. Characters that stand for
themselves are kept back in reverse until the next escape or fold. -/
def putDoubleChars (indent : Nat) (mayFold : Bool) (isFirst : Bool) (pending : List Char) :
    List Char → Pen → Pen
  | [], p => p.put pending.reverse
  | c :: rest, p =>
      let inside := mayFold && !isFirst && !rest.isEmpty
      if isBare c then
        if inside && (c == ' ' || pending.isEmpty) && lineWidth < p.column + pending.length then
          putDoubleChars indent mayFold false [c] rest
            (foldDouble p indent pending.reverse (c == ' '))
        else
          putDoubleChars indent mayFold false (c :: pending) rest p
      else
        let q := (p.put pending.reverse).put (escape c)
        if inside && lineWidth + 1 < q.column then
          putDoubleChars indent mayFold false [] rest
            (foldDouble q indent [] (rest.head? == some ' '))
        else
          putDoubleChars indent mayFold false [] rest q

/-- Writes a scalar between double quotes. -/
def putDouble (p : Pen) (indent : Nat) (mayFold : Bool) (s : List Char) : Pen :=
  (putDoubleChars indent mayFold true [] s (p.indicator ['"'] true false)).indicator ['"']
    false false

def putLiteral (p : Pen) (indent : Nat) (lines : List (List Char)) : Pen :=
  lines.foldl (fun q line => ((q.goTo indent).put line).lineBreak)
    (p.indicator ['|'] true false).lineBreak

def putScalar (p : Pen) (style : ScalarStyle) (indent : Nat) (mayFold : Bool) (s : List Char) :
    Pen :=
  match style with
  | .plain => putPlain p indent mayFold s
  | .single => putSingle p indent mayFold s
  | .double => putDouble p indent mayFold s
  | .literal => putLiteral p indent [s]

end HostedLisp.Yaml
