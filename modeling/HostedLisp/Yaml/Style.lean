import HostedLisp.Text.Quoted
import HostedLisp.Yaml.Scalar

namespace HostedLisp.Yaml

/-- Characters that end a line. -/
def isBreak (c : Char) : Bool :=
  c == '\n' || c.toNat == 0x85 || c.toNat == 0x2028 || c.toNat == 0x2029

/-- Characters after which an indicator is one: blanks, line ends and the end mark. -/
def isGapChar (c : Char) : Bool :=
  c.toNat == 0 || c == ' ' || c == '\t' || c == '\r' || isBreak c

/-- Characters that are written only as escapes. -/
def isSpecial (c : Char) : Bool :=
  !(c == '\n' || (0x20 ≤ c.toNat && c.toNat ≤ 0x7E))

/-- What the characters of a scalar allow. -/
structure Analysis where
  empty : Bool
  multiline : Bool
  allowsPlain : Bool
  allowsSingle : Bool
deriving Repr, DecidableEq

/-- Indicators that may not begin a plain scalar. -/
def leadingIndicators : List Char := "#,[]&*!|>'\"%@\x60\x7b\x7d".toList

/-- Whether the character at hand is an indicator in a plain scalar, given whether it is the
first, whether a gap precedes it, and what follows. -/
def isIndicator (first afterGap : Bool) (c : Char) (rest : List Char) : Bool :=
  let beforeGap := (rest.head?.map isGapChar).getD true
  if first then
    leadingIndicators.contains c || ((c == '?' || c == ':' || c == '-') && beforeGap)
  else
    (c == ':' && beforeGap) || (c == '#' && afterGap)

/-- Whether a plain scalar would hold an indicator, from a character on. -/
def holdsIndicator (first afterGap : Bool) : List Char → Bool
  | [] => false
  | c :: rest => isIndicator first afterGap c rest || holdsIndicator false (isGapChar c) rest

/-- Whether a space and a line end are neighbours in the given order. -/
def holdsPair (p q : Char → Bool) : List Char → Bool
  | a :: b :: rest => (p a && q b) || holdsPair p q (b :: rest)
  | _ => false

def beginsLikeMark (s : List Char) : Bool :=
  "---".toList.isPrefixOf s || "...".toList.isPrefixOf s

/-- What the characters of a scalar allow. -/
def analyze (s : List Char) : Analysis :=
  if s.isEmpty then ⟨true, false, true, true⟩
  else
    let isSpaceChar (c : Char) : Bool := c == ' '
    let edge (c : Char) : Bool := isSpaceChar c || isBreak c
    let edged := (s.head?.map edge).getD false || (s.getLast?.map edge).getD false
    let breaks := s.any isBreak
    let breakSpace := holdsPair isBreak isSpaceChar s
    let awkward := holdsPair isSpaceChar isBreak s || s.any isSpecial
    let indicators := beginsLikeMark s || holdsIndicator true true s
    ⟨false, breaks, !(edged || breaks || breakSpace || awkward || indicators),
      !(breakSpace || awkward)⟩

/-- The ways of writing a scalar. -/
inductive ScalarStyle where
  | plain
  | single
  | double
  | literal
deriving Repr, DecidableEq

/-- The style of a scalar: plain where the plain form is read back with the right kind, and
where a key is not empty and stays on one line. -/
def chooseStyle (a : Analysis) (readsBack isKey : Bool) : ScalarStyle :=
  if readsBack && !(isKey && (a.empty || a.multiline)) && a.allowsPlain then .plain
  else if a.allowsSingle && !(isKey && a.multiline) then .single
  else .double

/-- The letters of characters that have short escapes. -/
def escapeLetters : List (Nat × Char) :=
  [(0, '0'), (7, 'a'), (8, 'b'), (9, 't'), (10, 'n'), (11, 'v'), (12, 'f'), (13, 'r'),
    (0x1B, 'e'), (0x22, '"'), (0x5C, '\\'), (0x85, 'N'), (0xA0, '_'), (0x2028, 'L'),
    (0x2029, 'P')]

/-- Whether a character stands for itself between double quotes. -/
def isBare (c : Char) : Bool :=
  c != '"' && c != '\\' && 0x20 ≤ c.toNat && c.toNat ≤ 0x7E

/-- The upper-case hexadecimal digits of a number. -/
def upperHex (width n : Nat) : List Char :=
  (Text.hex width n).map Char.toUpper

/-- The escape of a character between double quotes. -/
def escape (c : Char) : List Char :=
  let n := c.toNat
  match escapeLetters.find? (fun e => e.1 == n) with
  | some (_, letter) => ['\\', letter]
  | none =>
      if n ≤ 0xFF then '\\' :: 'x' :: upperHex 2 n
      else if n ≤ 0xFFFF then '\\' :: 'u' :: upperHex 4 n
      else '\\' :: 'U' :: upperHex 8 n

end HostedLisp.Yaml
