import HostedLisp.Number.Numeral
import HostedLisp.Value.Equality

namespace HostedLisp.Json

open Number

/-- Why a text was not read: it is no JSON, or an integer in it has too many digits. -/
inductive Fault where
  | malformed
  | tooManyDigits (count : Nat)
deriving Repr, DecidableEq

/-- What was read, with the characters left. -/
abbrev Reading (α : Type) := Except Fault (α × List Char)

/-- White space between the parts of a text. -/
def isSpace (c : Char) : Bool :=
  c == ' ' || c == '\t' || c == '\n' || c == '\r'

def skipSpace (s : List Char) : List Char := s.dropWhile isSpace

/-- The value of a hexadecimal digit. -/
def hexValue? (c : Char) : Option Nat :=
  if '0' ≤ c ∧ c ≤ '9' then some (c.toNat - 48)
  else if 'a' ≤ c ∧ c ≤ 'f' then some (c.toNat - 87)
  else if 'A' ≤ c ∧ c ≤ 'F' then some (c.toNat - 55)
  else none

/-- The number of four hexadecimal digits. -/
def unit? : List Char → Option (Nat × List Char)
  | a :: b :: c :: d :: rest => do
      let high := (← hexValue? a) * 16 + (← hexValue? b)
      let low := (← hexValue? c) * 16 + (← hexValue? d)
      return (high * 256 + low, rest)
  | _ => none

/-- Whether a code unit opens a pair. -/
def isHighUnit (n : Nat) : Bool := 0xD800 ≤ n && n < 0xDC00

/-- Whether a code unit closes a pair. -/
def isLowUnit (n : Nat) : Bool := 0xDC00 ≤ n && n < 0xE000

/-- The character of a code unit; half a pair is shown as the replacement character. -/
def unitChar (n : Nat) : Char :=
  if 0xD800 ≤ n ∧ n < 0xE000 then '\uFFFD' else Char.ofNat n

/-- The character of a numeric escape, after its mark: one code unit, or a pair of them. -/
def numericEscape? (s : List Char) : Option (Char × List Char) := do
  let (high, rest) ← unit? s
  match rest with
  | '\\' :: 'u' :: more =>
      match unit? more with
      | some (low, rest') =>
          if isHighUnit high && isLowUnit low then
            return (Char.ofNat (0x10000 + (high - 0xD800) * 0x400 + (low - 0xDC00)), rest')
          else
            return (unitChar high, rest)
      | none => return (unitChar high, rest)
  | _ => return (unitChar high, rest)

def letterEscape? : Char → Option Char
  | '"' => some '"'
  | '\\' => some '\\'
  | '/' => some '/'
  | 'b' => some '\x08'
  | 'f' => some '\x0c'
  | 'n' => some '\n'
  | 'r' => some '\r'
  | 't' => some '\t'
  | _ => none

/-- Reads a string after its opening quote; control characters must be escaped. -/
def string : Nat → List Char → Reading (List Char)
  | 0, _ => .error .malformed
  | _ + 1, [] => .error .malformed
  | fuel + 1, c :: rest =>
      if c = '"' then .ok ([], rest)
      else if c = '\\' then
        match rest with
        | [] => .error .malformed
        | e :: rest' =>
            if e = 'u' then
              match numericEscape? rest' with
              | some (d, rest'') => (string fuel rest'').map fun r => (d :: r.1, r.2)
              | none => .error .malformed
            else
              match letterEscape? e with
              | some d => (string fuel rest').map fun r => (d :: r.1, r.2)
              | none => .error .malformed
      else if c.toNat < 32 then .error .malformed
      else (string fuel rest).map fun r => (c :: r.1, r.2)

/-- Reads the digits of an integer part: a single zero, or digits that begin with another. -/
def wholeDigits : List Char → List Char × List Char
  | '0' :: rest => (['0'], rest)
  | s => (s.takeWhile isDigit, s.dropWhile isDigit)

/-- Reads a fraction: a point and at least one digit. -/
def fractionDigits : List Char → List Char × List Char
  | '.' :: rest =>
      let ds := rest.takeWhile isDigit
      if ds.isEmpty then ([], '.' :: rest) else ('.' :: ds, rest.dropWhile isDigit)
  | s => ([], s)

/-- Reads an exponent: a letter, an optional sign and at least one digit. -/
def exponentDigits : List Char → List Char × List Char
  | [] => ([], [])
  | c :: rest =>
      if c = 'e' ∨ c = 'E' then
        let (signPart, body) := match rest with
          | '+' :: r => (['+'], r)
          | '-' :: r => (['-'], r)
          | r => ([], r)
        let ds := body.takeWhile isDigit
        if ds.isEmpty then ([], c :: rest) else (c :: signPart ++ ds, body.dropWhile isDigit)
      else ([], c :: rest)

/-- Reads a number after its sign. One without fraction and exponent is an integer. -/
def number (negative : Bool) (s : List Char) : Reading Value :=
  let (whole, rest) := wholeDigits s
  let (fraction, rest) := fractionDigits rest
  let (exponent, rest) := exponentDigits rest
  if whole.isEmpty then .error .malformed
  else if fraction.isEmpty && exponent.isEmpty then
    if digitLimit < whole.length then .error (.tooManyDigits whole.length)
    else
      let n : Int := digitsValue whole
      .ok (.int (if negative then -n else n), rest)
  else
    match readDouble? (signText negative ++ whole ++ fraction ++ exponent) with
    | some x => .ok (.double x, rest)
    | none => .error .malformed

/-- The characters after a word at the start of a text. -/
def afterWord? (word : String) (s : List Char) : Option (List Char) :=
  if word.toList.isPrefixOf s then some (s.drop word.length) else none

/-- Reads one of the words for values, or a number. -/
def scalar (s : List Char) : Reading Value :=
  let words : List (String × Value) :=
    [("null", .null), ("true", .bool true), ("false", .bool false), ("NaN", .double .nan),
      ("Infinity", .double (.infinite false)), ("-Infinity", .double (.infinite true))]
  match words.findSome? (fun w => (afterWord? w.1 s).map fun rest => (w.2, rest)) with
  | some r => .ok r
  | none =>
      match s with
      | '-' :: rest => number true rest
      | s => number false s

mutual

def value : Nat → List Char → Reading Value
  | 0, _ => .error .malformed
  | _ + 1, [] => .error .malformed
  | fuel + 1, c :: rest =>
      if c = '"' then (string (rest.length + 1) rest).map fun r => (.str (String.ofList r.1), r.2)
      else if c = '[' then
        match skipSpace rest with
        | ']' :: rest' => .ok (.listOf [], rest')
        | rest' => (items fuel rest').map fun r => (.listOf r.1, r.2)
      else if c = '{' then
        match skipSpace rest with
        | '}' :: rest' => .ok (.map [], rest')
        | rest' => (entries fuel rest').map fun r => (.mapOf r.1, r.2)
      else scalar (c :: rest)

/-- Reads the items of a list, of which there is at least one, and its closing bracket. -/
def items : Nat → List Char → Except Fault (List Value × List Char)
  | 0, _ => .error .malformed
  | fuel + 1, s => do
      let (v, rest) ← value fuel s
      match skipSpace rest with
      | ',' :: rest' =>
          let (vs, rest'') ← items fuel (skipSpace rest')
          return (v :: vs, rest'')
      | ']' :: rest' => return ([v], rest')
      | _ => .error .malformed

/-- Reads the entries of a map, of which there is at least one, and its closing bracket. -/
def entries : Nat → List Char → Except Fault (List (Value × Value) × List Char)
  | 0, _ => .error .malformed
  | fuel + 1, s =>
      match s with
      | '"' :: rest => do
          let (key, rest) ← string (rest.length + 1) rest
          match skipSpace rest with
          | ':' :: rest =>
              let (v, rest) ← value fuel (skipSpace rest)
              let e : Value × Value := (.str (String.ofList key), v)
              match skipSpace rest with
              | ',' :: rest' =>
                  let (es, rest'') ← entries fuel (skipSpace rest')
                  return (e :: es, rest'')
              | '}' :: rest' => return ([e], rest')
              | _ => .error .malformed
          | _ => .error .malformed
      | _ => .error .malformed

end

/-- Reads a text that is one value, with white space around it. A byte order mark is refused. -/
def parse (s : List Char) : Except Fault Value := do
  if s.head? = some '\uFEFF' then .error .malformed
  else
    let (v, rest) ← value (2 * s.length + 2) (skipSpace s)
    if (skipSpace rest).isEmpty then return v else .error .malformed

end HostedLisp.Json
