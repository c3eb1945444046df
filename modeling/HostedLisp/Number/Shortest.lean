import HostedLisp.Number.Exact

namespace HostedLisp.Number

/-- A decimal candidate `coefficient · 10 ^ exponent` for a finite double. -/
structure Candidate where
  coefficient : Nat
  exponent : Int
deriving Repr, DecidableEq

namespace Candidate

/-- Whether the candidate reads back as `x`, whose sign it is given. -/
def readsBack (c : Candidate) (negative : Bool) (x : Binary) : Bool :=
  Format.double.roundDecimal negative c.coefficient c.exponent == x

/-- The same number without trailing zeros in the coefficient. -/
def trimmed (c : Candidate) : Candidate :=
  let (coefficient, exponent) := tenFreePart c.coefficient c.exponent
  ⟨coefficient, exponent⟩

end Candidate

/-- The exponent `k` with `10 ^ k ≤ n / d < 10 ^ (k + 1)`, for positive `n` and `d`. -/
def floorLog10 (n d : Nat) : Int :=
  let k : Int := ((digits n).length : Int) - (digits d).length
  let fits := if 0 ≤ k then d * pow10 k.toNat ≤ n else d ≤ n * pow10 (-k).toNat
  if fits then k else k - 1

/-- The two neighbours of `n / d` on the grid of multiples of `10 ^ k`, the nearer one first;
of two equally near ones the even one. -/
def neighbours (n d : Nat) (k : Int) : List Candidate :=
  let (a, b) := if 0 ≤ k then (n, d * pow10 k.toNat) else (n * pow10 (-k).toNat, d)
  let q := a / b
  let r := a % b
  let below : Candidate := ⟨q, k⟩
  let above : Candidate := ⟨q + 1, k⟩
  if 2 * r < b ∨ (2 * r = b ∧ q % 2 = 0) then [below, above] else [above, below]

/-- The exact decimal of a finite value. -/
def exactCandidate (m : Nat) (e : Int) : Candidate :=
  if 0 ≤ e then ⟨m * pow2 e.toNat, 0⟩ else ⟨m * pow5 (-e).toNat, e⟩

/-- The candidates with one to seventeen digits, shorter ones first, and the exact decimal. -/
def candidates (m : Nat) (e : Int) : List Candidate :=
  let (n, d) := Binary.ratio m e
  let top := floorLog10 n d
  (List.range 17).flatMap
    (fun (places : Nat) => (neighbours n d (top - places)).map Candidate.trimmed) ++
      [exactCandidate m e]

/-- The first candidate that reads back. -/
def shortest (negative : Bool) (m : Nat) (e : Int) : Candidate :=
  ((candidates m e).find? (·.readsBack negative (.finite negative m e))).getD (exactCandidate m e)

/-- How the digits of a number are laid out: positionally between two powers of ten, with an
exponent outside them. -/
structure Layout where
  leastPositional : Int
  mostPositional : Int
  exponentDigits : Nat

/-- Numbers from a ten-thousandth to below ten million billions are written positionally, and
an exponent has a sign and at least two digits. -/
def doubleLayout : Layout := ⟨-4, 15, 2⟩

/-- Adds the fraction `.0` to the digits of a whole number. -/
def wholeText (ds : List Char) : List Char :=
  ds ++ ".0".toList

/-- The sign and digits of an exponent, padded with zeros. -/
def paddedExponent (width : Nat) (e : Int) : List Char :=
  let ds := digits e.natAbs
  (if e < 0 then '-' else '+') :: (List.replicate (width - ds.length) '0' ++ ds)

namespace Binary

/-- The decimal with the shortest digits of a finite value; zero has the digit `0`. -/
def shortestDecimal (negative : Bool) (m : Nat) (e : Int) : Candidate :=
  if m = 0 then ⟨0, 0⟩ else shortest negative m e

/-- The power of ten of the first digit. -/
def leadingPower (c : Candidate) : Int :=
  c.exponent + (digits c.coefficient).length - 1

def isPositional (layout : Layout) (c : Candidate) : Bool :=
  layout.leastPositional ≤ leadingPower c && leadingPower c ≤ layout.mostPositional

/-- The digits of a positional number, which always has a fraction. -/
def positionalDigits (c : Candidate) : List Char :=
  let ds := digits c.coefficient
  if 0 ≤ c.exponent then wholeText (ds ++ List.replicate c.exponent.toNat '0')
  else withPoint ds c.exponent.natAbs

def exponentDigits (layout : Layout) (c : Candidate) : List Char :=
  let ds := digits c.coefficient
  withPoint ds (ds.length - 1) ++ 'e' :: paddedExponent layout.exponentDigits (leadingPower c)

/-- The words for the values that are not finite. -/
def specialText : Binary → List Char
  | infinite negative => signText negative ++ "inf".toList
  | _ => "nan".toList

/-- The shortest spelling that reads back. -/
def text : Binary → List Char
  | finite negative m e =>
      let c := shortestDecimal negative m e
      signText negative ++
        if isPositional doubleLayout c then positionalDigits c else exponentDigits doubleLayout c
  | x => specialText x

/-- The shortest spelling without exponent. -/
def positionalText : Binary → List Char
  | finite negative m e =>
      let c := shortestDecimal negative m e
      if isPositional doubleLayout c then signText negative ++ positionalDigits c
      else (Decimal.finite negative c.coefficient c.exponent).positional
  | x => specialText x

end Binary

theorem readsBack_shortest {negative : Bool} {m : Nat} {e : Int}
    (h : (exactCandidate m e).readsBack negative (.finite negative m e) = true) :
    (shortest negative m e).readsBack negative (.finite negative m e) = true := by
  unfold shortest
  cases hc : (candidates m e).find? (·.readsBack negative (.finite negative m e)) with
  | none => exact h
  | some c =>
      have hread := List.find?_some hc
      simpa using hread

end HostedLisp.Number
