import HostedLisp.Number.Digits

namespace HostedLisp.Yaml

open Number

/-- The kinds of scalars. -/
inductive ScalarKind where
  | null
  | bool
  | int
  | float
  | timestamp
  | merge
  | value
  | str
deriving Repr, DecidableEq

/-- Digits and the underscores that may stand among them. -/
def isSpacedDigit (c : Char) : Bool := isDigit c || c == '_'

/-- Binary digits and underscores. -/
def isSpacedBit (c : Char) : Bool := c == '0' || c == '1' || c == '_'

/-- Octal digits and underscores. -/
def isSpacedOctal (c : Char) : Bool := ('0' ≤ c && c ≤ '7') || c == '_'

/-- Hexadecimal digits and underscores. -/
def isSpacedHex (c : Char) : Bool :=
  isSpacedDigit c || ('a' ≤ c && c ≤ 'f') || ('A' ≤ c && c ≤ 'F')

/-- Whether a text holds characters of a class only, and at least one. -/
def allOf (p : Char → Bool) (s : List Char) : Bool := !s.isEmpty && s.all p

/-- The text without an optional sign. -/
def unsigned : List Char → List Char
  | [] => []
  | c :: rest => if c = '-' ∨ c = '+' then rest else c :: rest

/-- A text split at each occurrence of a character. -/
def splitAtChar (mark : Char) : List Char → List (List Char)
  | [] => [[]]
  | c :: rest =>
      if c = mark then [] :: splitAtChar mark rest
      else
        match splitAtChar mark rest with
        | part :: parts => (c :: part) :: parts
        | [] => [[c]]

/-- Whether a text is a number below sixty, of one or two digits. -/
def isSixtieth : List Char → Bool
  | [a] => isDigit a
  | [a, b] => '0' ≤ a && a ≤ '5' && isDigit b
  | _ => false

/-- Whether a text is a digit with further digits and underscores. -/
def isSpacedNumeral : List Char → Bool
  | [] => false
  | c :: rest => isDigit c && rest.all isSpacedDigit

/-- Whether a text has the form of an integer: binary, octal, decimal, hexadecimal, or in parts
of sixty. -/
def isIntForm (s : List Char) : Bool :=
  match unsigned s with
  | [] => false
  | '0' :: rest =>
      rest.isEmpty || allOf isSpacedOctal rest ||
        (match rest with
          | 'b' :: bits => allOf isSpacedBit bits
          | 'x' :: ds => allOf isSpacedHex ds
          | _ => false)
  | body =>
      match splitAtChar ':' body with
      | [] => false
      | first :: parts => isSpacedNumeral first && parts.all isSixtieth

/-- Whether a text is an exponent with a sign, or empty. -/
def isExponentForm : List Char → Bool
  | [] => true
  | e :: sign :: ds => (e == 'e' || e == 'E') && (sign == '-' || sign == '+') && allOf isDigit ds
  | _ => false

/-- Whether a text is a fraction with an optional exponent. -/
def isFractionForm (s : List Char) : Bool :=
  isExponentForm (s.dropWhile isSpacedDigit)

/-- Whether a text has the form of a number with a point: decimal, in parts of sixty, an
infinity, or not a number. -/
def isFloatForm (s : List Char) : Bool :=
  let body := unsigned s
  let whole := body.takeWhile fun c => c != '.'
  match body.dropWhile (fun c => c != '.') with
  | [] => false
  | _ :: rest =>
      let signed := body.length != s.length
      if whole.isEmpty then
        let word := String.ofList rest
        (word == "inf" || word == "Inf" || word == "INF") ||
          (!signed && (word == "nan" || word == "NaN" || word == "NAN")) ||
          (!signed && (rest.head?.map isDigit).getD false && isFractionForm rest)
      else
        match splitAtChar ':' whole with
        | [first] => isSpacedNumeral first && isFractionForm rest
        | first :: parts => isSpacedNumeral first && parts.all isSixtieth && rest.all isSpacedDigit
        | [] => false

/-- The parts of a point in time as they are written; the clock is missing from a date. -/
structure Timestamp where
  year : List Char
  month : List Char
  day : List Char
  clock : Option (List Char)
deriving Repr, DecidableEq

/-- Takes between `least` and `most` digits from the start of a text, as many as there are. -/
def takeDigits? (least most : Nat) (s : List Char) : Option (List Char × List Char) :=
  let ds := (s.takeWhile isDigit).take most
  if ds.length < least then none else some (ds, s.drop ds.length)

/-- The text after a character that it has to begin with. -/
def after? (c : Char) : List Char → Option (List Char)
  | [] => none
  | d :: rest => if d = c then some rest else none

/-- Whether a text is empty or the offset of a time zone, after optional blanks. -/
def isZoneForm (s : List Char) : Bool :=
  match s.dropWhile fun c => c == ' ' || c == '\t' with
  | [] => s.isEmpty
  | 'Z' :: rest => rest.isEmpty
  | c :: rest =>
      (c == '-' || c == '+') &&
        (match takeDigits? 1 2 rest with
          | none => false
          | some (_, []) => true
          | some (_, rest') =>
              match (after? ':' rest').bind (takeDigits? 2 2) with
              | some (_, []) => true
              | _ => false)

/-- Whether a text is a time of day: hours, minutes, seconds, an optional fraction and zone. -/
def isClockForm (s : List Char) : Bool :=
  let rest := do
    let (_, s) ← takeDigits? 1 2 s
    let (_, s) ← takeDigits? 2 2 (← after? ':' s)
    let (_, s) ← takeDigits? 2 2 (← after? ':' s)
    return s
  match rest with
  | none => false
  | some ('.' :: s) => isZoneForm (s.dropWhile isDigit)
  | some s => isZoneForm s

/-- The parts of a point in time. A date alone has months and days of two digits. -/
def timestamp? (s : List Char) : Option Timestamp := do
  let (year, s) ← takeDigits? 4 4 s
  let (month, s) ← takeDigits? 1 2 (← after? '-' s)
  let (day, s) ← takeDigits? 1 2 (← after? '-' s)
  match s with
  | [] =>
      if month.length = 2 ∧ day.length = 2 then return ⟨year, month, day, none⟩ else none
  | c :: rest =>
      let clock :=
        if c = 'T' ∨ c = 't' then some rest
        else if c = ' ' ∨ c = '\t' then some (rest.dropWhile fun d => d == ' ' || d == '\t')
        else none
      match clock with
      | some clock => if isClockForm clock then return ⟨year, month, day, some clock⟩ else none
      | none => none

/-- The words for truth values. -/
def boolWords : List (String × Bool) :=
  [("yes", true), ("Yes", true), ("YES", true), ("no", false), ("No", false), ("NO", false),
    ("true", true), ("True", true), ("TRUE", true), ("false", false), ("False", false),
    ("FALSE", false), ("on", true), ("On", true), ("ON", true), ("off", false), ("Off", false),
    ("OFF", false)]

def nullWords : List String := ["", "~", "null", "Null", "NULL"]

def scalarKind (s : List Char) : ScalarKind :=
  let word := String.ofList s
  if boolWords.any (·.1 == word) then .bool
  else if isFloatForm s then .float
  else if isIntForm s then .int
  else if word = "<<" then .merge
  else if nullWords.contains word then .null
  else if (timestamp? s).isSome then .timestamp
  else if word = "=" then .value
  else .str

end HostedLisp.Yaml
