import HostedLisp.Failure
import HostedLisp.Number.Numeral
import HostedLisp.Text.Base64
import HostedLisp.Text.Blank
import HostedLisp.Yaml.Node

namespace HostedLisp.Yaml

open Number Text

/-- What was read for a scalar, or why it was refused. -/
abbrev Reading := Except Failure Value

/-- The value of a digit in a base up to thirty-six. -/
def digitIn? (base : Nat) (c : Char) : Option Nat :=
  let n :=
    if isDigit c then c.toNat - 48
    else if 'a' ≤ c ∧ c ≤ 'z' then c.toNat - 87
    else if 'A' ≤ c ∧ c ≤ 'Z' then c.toNat - 55
    else base
  if n < base then some n else none

/-- The number that digits of a base spell; there must be at least one. -/
def numberIn? (base : Nat) (ds : List Char) : Option Nat :=
  if ds.isEmpty then none
  else ds.foldlM (fun n c => (digitIn? base c).map fun d => base * n + d) 0

def baseLetter? : Nat → Option Char
  | 2 => some 'b'
  | 8 => some 'o'
  | 16 => some 'x'
  | _ => none

/-- Digits without the mark of their base. -/
def unmarked (base : Nat) : List Char → List Char
  | '0' :: c :: rest => if some c.toLower = baseLetter? base then rest else '0' :: c :: rest
  | s => s

/-- Reads an integer in a base, with blanks around it, a sign and the mark of the base. -/
def integerIn (base : Nat) (s : List Char) : Except Failure Int :=
  let (negative, body) := Decimal.readSign (trim s)
  let ds := unmarked base body
  if base = 10 && ds.all isDigit && digitLimit < ds.length then
    .error (.tooManyDigitsToRead ds.length)
  else
    match numberIn? base ds with
    | some n => .ok (if negative then -(n : Int) else n)
    | none =>
        .error (.valueError ("invalid literal for int() with base " ++ toString base ++ ": " ++
          quoted (String.ofList s)))

/-- Reads an integer after its sign: in the base that its start shows, or in parts of sixty. -/
def magnitude : List Char → Except Failure Int
  | [] => .error (.outOfRange "string")
  | '0' :: 'b' :: ds => integerIn 2 ds
  | '0' :: 'x' :: ds => integerIn 16 ds
  | '0' :: ds => integerIn 8 ('0' :: ds)
  | s =>
      if s.contains ':' then do
        let parts ← (splitAtChar ':' s).mapM (integerIn 10)
        return parts.foldl (fun n part => 60 * n + part) 0
      else integerIn 10 s

/-- The text without the underscores among its digits, and its sign; an empty text is refused. -/
def signed (s : List Char) : Except Failure (Bool × List Char) :=
  match s.filter (· != '_') with
  | [] => .error (.outOfRange "string")
  | s => .ok (Decimal.readSign s)

def readInteger (s : List Char) : Reading := do
  let (negative, body) ← signed s
  let n ← magnitude body
  return .int (if negative then -n else n)

/-- Reads a double as it is written outside of YAML, with blanks around it. -/
def plainDouble (s : List Char) : Except Failure Binary :=
  match readDouble? (trim s) with
  | some x => .ok x
  | none => .error (.valueError ("could not convert string to float: " ++ quoted (String.ofList s)))

/-- The sum of parts of sixty, from the last one on. -/
def sixtieths (parts : List Binary) : Binary :=
  let scaled := parts.reverse.zipIdx.map fun (x, i) => x.mul (Binary.ofInt (Nat.pow 60 i))
  scaled.foldl Binary.add (.zero false)

def readDouble (s : List Char) : Reading := do
  let (negative, body) ← signed (asciiLower s)
  let x ←
    if body = ".inf".toList then .ok (.infinite false)
    else if body = ".nan".toList then .ok .nan
    else if body.contains ':' then ((splitAtChar ':' body).mapM plainDouble).map sixtieths
    else plainDouble body
  return .double (if negative then x.neg else x)

/-- Reads one of the words for truth values, in any case. -/
def readBool (s : List Char) : Reading :=
  let word := String.ofList (asciiLower s)
  match boolWords.lookup word with
  | some b => .ok (.bool b)
  | none => .error (.foreign "KeyError" (quoted word))

/-- The parts of a date; unlike one that is not tagged, it may leave out leading zeros. -/
def dateParts? (s : List Char) : Option (Nat × Nat × Nat) := do
  let (year, s) ← takeDigits? 4 4 s
  let (month, s) ← takeDigits? 1 2 (← after? '-' s)
  let (day, s) ← takeDigits? 1 2 (← after? '-' s)
  if s.isEmpty then return (digitsValue year, digitsValue month, digitsValue day) else none

/-- Whether a year has a day more than others. -/
def isLeapYear (year : Nat) : Bool :=
  year % 4 = 0 && (year % 100 != 0 || year % 400 = 0)

def daysIn (year month : Nat) : Nat :=
  if month = 2 then (if isLeapYear year then 29 else 28)
  else if month = 4 ∨ month = 6 ∨ month = 9 ∨ month = 11 then 30
  else 31

/-- A date of the calendar, which begins with the year one. -/
def calendarDate (year month day : Nat) : Except Failure Date :=
  if year = 0 then .error (.valueError "year 0 is out of range")
  else if month < 1 ∨ 12 < month then .error (.valueError "month must be in 1..12")
  else if day < 1 ∨ daysIn year month < day then
    .error (.valueError "day is out of range for month")
  else .ok ⟨year, month, day⟩

/-- Reads a date. A time of day has no value. -/
def readDate (s : List Char) : Reading :=
  match dateParts? s with
  | some (year, month, day) => (calendarDate year month day).map .date
  | none =>
      if (timestamp? s).isSome then .error (.yamlError "a time of day has no value")
      else .error (.attributeError "'NoneType' object has no attribute 'groupdict'")

def readBytes (s : List Char) : Reading :=
  match if s.all (·.toNat < 0x80) then decodeBase64? s else none with
  | some bytes => .ok (.bytes bytes)
  | none => .error (.yamlError "failed to decode base64 data")

/-- The failure of a tag that has no values. -/
def untagged : Failure := .yamlError "could not determine a constructor for the tag"

/-- The value of a text with a tag; only the tags of scalars have one. -/
def scalarValue (tag : Tag) (s : List Char) : Reading :=
  match tag with
  | .null => .ok .null
  | .bool => readBool s
  | .int => readInteger s
  | .float => readDouble s
  | .binary => readBytes s
  | .timestamp => readDate s
  | .str => .ok (.str (String.ofList s))
  | _ => .error untagged

end HostedLisp.Yaml
