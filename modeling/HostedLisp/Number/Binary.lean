import HostedLisp.Number.Decimal

namespace HostedLisp.Number

/-- A binary floating-point value. A finite value keeps its mantissa odd, or both parts zero,
so that equal numbers of one sign are the same data. -/
inductive Binary where
  | finite (negative : Bool) (mantissa : Nat) (exponent : Int)
  | infinite (negative : Bool)
  | nan
deriving Repr, DecidableEq, Inhabited

/-- A binary format: the significant bits, and the least and greatest exponent of the last of
them. -/
structure Format where
  precision : Nat
  minExponent : Int
  maxExponent : Int
deriving Repr, DecidableEq

namespace Format

def double : Format := ⟨53, -1074, 971⟩

def single : Format := ⟨24, -149, 104⟩

end Format

/-- Removes factors of two from a mantissa, adding them to the exponent. -/
def oddPart (m : Nat) (e : Int) : Nat × Int :=
  if h : m = 0 then (0, 0)
  else if m % 2 = 0 then oddPart (m / 2) (e + 1) else (m, e)
termination_by m
decreasing_by omega

/-- The quotient rounded to the nearest integer, a half to the even one. -/
def divHalfEven (n d : Nat) : Nat :=
  let q := n / d
  let r := n % d
  if d < 2 * r ∨ (2 * r = d ∧ q % 2 = 1) then q + 1 else q

/-- The greatest `k` with `2 ^ k ≤ n / d`, for positive `n` and `d`. -/
def floorLog2 (n d : Nat) : Int :=
  let k : Int := (n.log2 : Int) - d.log2
  let fits := if 0 ≤ k then d * pow2 k.toNat ≤ n else d ≤ n * pow2 (-k).toNat
  if fits then k else k - 1

namespace Binary

/-- The finite value `± m · 2 ^ e`. -/
def ofParts (negative : Bool) (m : Nat) (e : Int) : Binary :=
  let (m', e') := oddPart m e
  finite negative m' e'

def zero (negative : Bool) : Binary := finite negative 0 0

def isFinite : Binary → Bool
  | finite .. => true
  | _ => false

/-- Changes the sign. -/
def neg : Binary → Binary
  | finite s m e => finite (!s) m e
  | infinite s => infinite (!s)
  | nan => nan

end Binary

namespace Format

/-- The value of the format nearest to `± n / d`, ties to even; an infinity when the rounded
number is too large. -/
def round (f : Format) (negative : Bool) (n d : Nat) : Binary :=
  if n = 0 then
    Binary.zero negative
  else
    let e := max f.minExponent (floorLog2 n d - (f.precision - 1))
    let m := if 0 ≤ e then divHalfEven n (d * pow2 e.toNat) else divHalfEven (n * pow2 (-e).toNat) d
    if f.maxExponent < e ∨ (e = f.maxExponent ∧ pow2 f.precision ≤ m) then
      Binary.infinite negative
    else
      Binary.ofParts negative m e

/-- The value of the format nearest to `± c · 10 ^ e`. Numbers beyond four hundred places on
either side of the point are far outside every format and are not expanded. -/
def roundDecimal (f : Format) (negative : Bool) (c : Nat) (e : Int) : Binary :=
  let adjusted := e + (digits c).length
  if c = 0 ∨ adjusted < -400 then
    Binary.zero negative
  else if 400 < adjusted then
    Binary.infinite negative
  else if 0 ≤ e then
    f.round negative (c * pow10 e.toNat) 1
  else
    f.round negative c (pow10 (-e).toNat)

def convert (f : Format) : Binary → Binary
  | .finite negative m e =>
      if 0 ≤ e then f.round negative (m * pow2 e.toNat) 1 else f.round negative m (pow2 (-e).toNat)
  | .infinite negative => .infinite negative
  | .nan => .nan

def ofDecimal (f : Format) : Decimal → Binary
  | .finite negative c e => f.roundDecimal negative c e
  | .infinite negative => .infinite negative
  | .nan _ => .nan

/-- The bits of a value of the format, with the sign on top, then the exponent, then the
mantissa without its leading one. -/
def toBits (f : Format) (exponentBits : Nat) : Binary → Nat
  | .finite negative m e =>
      let fractionBits := f.precision - 1
      let signBit := if negative then pow2 (exponentBits + fractionBits) else 0
      let shifted := max f.minExponent ((m.log2 : Int) + e - fractionBits)
      let full := if shifted ≤ e then m * pow2 (e - shifted).toNat else m
      if m = 0 then signBit
      else if full < pow2 fractionBits then signBit + full
      else signBit + (shifted - f.minExponent + 1).toNat * pow2 fractionBits +
        (full - pow2 fractionBits)
  | .infinite negative =>
      let fractionBits := f.precision - 1
      (if negative then pow2 (exponentBits + fractionBits) else 0) +
        (pow2 exponentBits - 1) * pow2 fractionBits
  | .nan => pow2 (f.precision - 1) * (pow2 exponentBits - 1) + pow2 (f.precision - 2)

end Format

namespace Binary

/-- The exact quotient that a finite value stands for. -/
def ratio (m : Nat) (e : Int) : Nat × Nat :=
  if 0 ≤ e then (m * pow2 e.toNat, 1) else (m, pow2 (-e).toNat)

/-- The double nearest to an integer. -/
def ofInt (n : Int) : Binary :=
  Format.double.round (n < 0) n.natAbs 1

/-- The product rounded to a double. -/
def mul : Binary → Binary → Binary
  | nan, _ => nan
  | _, nan => nan
  | finite s m e, finite t k f => Format.double.convert (finite (s != t) (m * k) (e + f))
  | infinite s, finite t k _ => if k = 0 then nan else infinite (s != t)
  | finite s m _, infinite t => if m = 0 then nan else infinite (s != t)
  | infinite s, infinite t => infinite (s != t)

/-- The sum rounded to a double. -/
def add : Binary → Binary → Binary
  | nan, _ => nan
  | _, nan => nan
  | infinite s, infinite t => if s = t then infinite s else nan
  | infinite s, _ => infinite s
  | _, infinite t => infinite t
  | finite s m e, finite t k f =>
      let low := min e f
      let a : Int := (m * pow2 (e - low).toNat : Nat)
      let b : Int := (k * pow2 (f - low).toNat : Nat)
      let total := (if s then -a else a) + (if t then -b else b)
      let negative := if total = 0 then s && t else total < 0
      Format.double.convert (finite negative total.natAbs low)

/-- Whether a finite value is a whole number. -/
def isWhole : Binary → Bool
  | finite _ _ e => 0 ≤ e
  | _ => false

end Binary

theorem oddPart_zero (e : Int) : oddPart 0 e = (0, 0) := by
  rw [oddPart]
  simp

end HostedLisp.Number
