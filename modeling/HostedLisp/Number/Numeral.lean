import HostedLisp.Number.Binary

namespace HostedLisp.Number

/-- Why a numeral has no value. -/
inductive NumeralFault where
  | malformed
  | outOfRange
deriving Repr, DecidableEq

/-- The least integer of 64 bits. -/
def leastInt64 : Int := -9223372036854775808

/-- The greatest integer of 64 bits. -/
def greatestInt64 : Int := 9223372036854775807

/-- Reads an optional minus sign and digits, as many as the limit allows. -/
def readInteger? (s : List Char) : Option Int :=
  let (negative, ds) := match s with
    | '-' :: rest => (true, rest)
    | _ => (false, s)
  if ds.isEmpty || !ds.all isDigit || digitLimit < ds.length then none
  else some (if negative then -(digitsValue ds : Int) else digitsValue ds)

/-- Reads an integer of 64 bits. -/
def readInt64 (s : List Char) : Except NumeralFault Int :=
  match readInteger? s with
  | none => .error .malformed
  | some n => if leastInt64 ≤ n ∧ n ≤ greatestInt64 then .ok n else .error .outOfRange

def readDouble? (s : List Char) : Option Binary :=
  (Decimal.read? s).map Format.double.ofDecimal

/-- The nearest single; a finite double beyond the range of singles has none. -/
def toSingle? (x : Binary) : Option Binary :=
  let y := Format.single.convert x
  if x.isFinite && !y.isFinite then none else some y

def readSingle? (s : List Char) : Option Binary :=
  (readDouble? s).bind toSingle?

end HostedLisp.Number
