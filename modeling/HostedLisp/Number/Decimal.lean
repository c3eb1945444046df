import HostedLisp.Number.Digits

namespace HostedLisp.Number

/-- A decimal number: `coefficient · 10 ^ exponent` with a sign, an infinity, or not a number. -/
inductive Decimal where
  | finite (negative : Bool) (coefficient : Nat) (exponent : Int)
  | infinite (negative : Bool)
  | nan (negative : Bool)
deriving Repr, DecidableEq, Inhabited

def signText (negative : Bool) : List Char :=
  if negative then ['-'] else []

/-- Inserts a point so that `places` digits follow it, adding zeros in front where needed. -/
def withPoint (ds : List Char) (places : Nat) : List Char :=
  if places = 0 then
    ds
  else
    let padded := List.replicate (places + 1 - ds.length) '0' ++ ds
    padded.take (padded.length - places) ++ '.' :: padded.drop (padded.length - places)

namespace Decimal

/-- The spelling without exponent: all digits, with as many decimal places as the number has. -/
def positional : Decimal → List Char
  | finite negative coefficient exponent =>
      signText negative ++
        if exponent ≤ 0 then
          withPoint (digits coefficient) exponent.natAbs
        else if coefficient = 0 then
          ['0']
        else
          digits coefficient ++ List.replicate exponent.toNat '0'
  | infinite negative => signText negative ++ "Infinity".toList
  | nan negative => signText negative ++ "NaN".toList

/-- The sign and digits of a power-of-ten exponent; a plus sign is written. -/
def exponentText (e : Int) : List Char :=
  if e < 0 then integerText e else '+' :: integerText e

/-- The spelling that keeps coefficient and exponent: positional while the exponent is not
positive and at most five zeros follow the point, scientific otherwise. -/
def scientific : Decimal → List Char
  | finite negative coefficient exponent =>
      let ds := digits coefficient
      let adjusted := exponent + ds.length - 1
      signText negative ++
        if exponent ≤ 0 ∧ -6 ≤ adjusted then
          withPoint ds exponent.natAbs
        else
          withPoint ds (ds.length - 1) ++ 'E' :: exponentText adjusted
  | infinite negative => signText negative ++ "Infinity".toList
  | nan negative => signText negative ++ "NaN".toList

/-- A decimal below one is not an integer, so the integer part and the fraction are read apart. -/
structure Mantissa where
  whole : List Char
  fraction : List Char

/-- Reads digits, an optional point and more digits; at least one digit is needed. -/
def readMantissa (s : List Char) : Option (Mantissa × List Char) :=
  let whole := s.takeWhile isDigit
  match s.dropWhile isDigit with
  | [] => if whole.isEmpty then none else some (⟨whole, []⟩, [])
  | c :: rest =>
      if c = '.' then
        let fraction := rest.takeWhile isDigit
        if whole.isEmpty && fraction.isEmpty then none
        else some (⟨whole, fraction⟩, rest.dropWhile isDigit)
      else if whole.isEmpty then none
      else some (⟨whole, []⟩, c :: rest)

/-- Splits off an optional sign. -/
def readSign : List Char → Bool × List Char
  | [] => (false, [])
  | c :: rest =>
      if c = '-' then (true, rest) else if c = '+' then (false, rest) else (false, c :: rest)

def readExponent : List Char → Option Int
  | [] => some 0
  | c :: rest =>
      if c = 'e' || c = 'E' then
        let (negative, ds) := readSign rest
        if ds.isEmpty || !ds.all isDigit then none
        else some (if negative then -(digitsValue ds : Int) else digitsValue ds)
      else none

/-- Reads a decimal: sign, digits with an optional point, optional exponent; or the words for
infinity and not a number in any case. -/
def read? (s : List Char) : Option Decimal :=
  let (negative, body) := readSign s
  let word := body.map Char.toLower
  if word = "inf".toList ∨ word = "infinity".toList then
    some (infinite negative)
  else if word = "nan".toList then
    some (nan negative)
  else
    match readMantissa body with
    | none => none
    | some (m, rest) =>
        (readExponent rest).map fun e =>
          finite negative (digitsValue (m.whole ++ m.fraction)) (e - m.fraction.length)

def isFinite : Decimal → Bool
  | finite .. => true
  | _ => false

/-- The significant digits kept by arithmetic. -/
def precision : Nat := 28

/-- Rounds to the arithmetic precision, a half to the even neighbour. -/
def rounded : Decimal → Decimal
  | finite negative coefficient exponent =>
      let extra := (digits coefficient).length - precision
      if extra = 0 then
        finite negative coefficient exponent
      else
        let unit := pow10 extra
        let quotient := coefficient / unit
        let remainder := coefficient % unit
        let up := unit < 2 * remainder || (2 * remainder = unit && quotient % 2 = 1)
        let result := if up then quotient + 1 else quotient
        if (digits result).length ≤ precision then
          finite negative result (exponent + extra)
        else
          finite negative (result / 10) (exponent + extra + 1)
  | d => d

def ofInt (n : Int) : Decimal :=
  finite (n < 0) n.natAbs 0

/-- The rounded product. -/
def mul : Decimal → Decimal → Decimal
  | nan s, _ => nan s
  | _, nan s => nan s
  | finite s c e, finite t d f => rounded (finite (s != t) (c * d) (e + f))
  | infinite s, finite t d _ => if d = 0 then nan false else infinite (s != t)
  | finite s c _, infinite t => if c = 0 then nan false else infinite (s != t)
  | infinite s, infinite t => infinite (s != t)

/-- The rounded sum. -/
def add : Decimal → Decimal → Decimal
  | nan s, _ => nan s
  | _, nan s => nan s
  | infinite s, infinite t => if s = t then infinite s else nan false
  | infinite s, _ => infinite s
  | _, infinite t => infinite t
  | finite s c e, finite t d f =>
      let low := min e f
      let a : Int := (c * pow10 (e - low).toNat : Nat)
      let b : Int := (d * pow10 (f - low).toNat : Nat)
      let total := (if s then -a else a) + (if t then -b else b)
      let negative := if total = 0 then s && t else total < 0
      rounded (finite negative total.natAbs low)

end Decimal

end HostedLisp.Number
