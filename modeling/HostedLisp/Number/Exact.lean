import HostedLisp.Number.Binary

namespace HostedLisp.Number

/-- A number of any kind as a signed coefficient and a power of ten, or an infinity. -/
inductive Exact where
  | finite (coefficient : Int) (exponent : Int)
  | infinite (negative : Bool)
deriving Repr, DecidableEq

/-- Removes factors of ten from a coefficient, adding them to the exponent. -/
def tenFreePart (c : Nat) (e : Int) : Nat × Int :=
  if h : c = 0 then (0, 0)
  else if c % 10 = 0 then tenFreePart (c / 10) (e + 1) else (c, e)
termination_by c
decreasing_by omega

namespace Exact

/-- The exact value `± c · 10 ^ e`. -/
def ofScaled (negative : Bool) (c : Nat) (e : Int) : Exact :=
  let (c', e') := tenFreePart c e
  finite (if negative then -(c' : Int) else c') e'

/-- The exact value of an integer. -/
def ofInt (n : Int) : Exact :=
  ofScaled (n < 0) n.natAbs 0

/-- The exact value of a decimal; not a number has none. -/
def ofDecimal? : Decimal → Option Exact
  | .finite negative c e => some (ofScaled negative c e)
  | .infinite negative => some (infinite negative)
  | .nan _ => none

/-- The exact value of a binary number; not a number has none. -/
def ofBinary? : Binary → Option Exact
  | .finite negative m e =>
      some <| if 0 ≤ e then ofScaled negative (m * pow2 e.toNat) 0
        else ofScaled negative (m * pow5 (-e).toNat) e
  | .infinite negative => some (infinite negative)
  | .nan => none

/-- Whether two values, if there are two, are the same number. -/
def same : Option Exact → Option Exact → Bool
  | some x, some y => x == y
  | _, _ => false

theorem same_comm (x y : Option Exact) : same x y = same y x := by
  cases x <;> cases y <;> simp [same, Bool.beq_comm]

theorem same_trans {x y z : Option Exact} (hxy : same x y = true) (hyz : same y z = true) :
    same x z = true := by
  cases x <;> cases y <;> cases z <;> simp_all [same]

end Exact

end HostedLisp.Number
