import HostedLisp.Failure
import HostedLisp.Number.Binary

namespace HostedLisp

open Number

/-- The name of a type in failures of arithmetic, where library types are qualified. -/
def ValueType.qualifiedName : ValueType → String
  | .decimal => "decimal.Decimal"
  | .date => "datetime.date"
  | t => t.name

namespace Value

/-- The integer that a value is; a truth value is zero or one. -/
def integer? : Value → Option Int
  | int n => some n
  | bool b => some (if b then 1 else 0)
  | _ => none

def binary? : Value → Option Binary
  | double x => some x
  | float x => some x
  | _ => none

/-- The double of an integer, which fails when the integer is too large. -/
def doubleOfInt (n : Int) : Except Failure Binary :=
  let x := Binary.ofInt n
  if x.isFinite then .ok x
  else .error (.foreign "OverflowError" "int too large to convert to float")

def unsupported (operator : String) (a b : Value) : Failure :=
  .typeError ("unsupported operand type(s) for " ++ operator ++ ": '" ++ a.type.qualifiedName ++
    "' and '" ++ b.type.qualifiedName ++ "'")

/-- An operation on numbers, given by its version for each kind; the outer `none` stands for
values that are not numbers of kinds that go together. -/
def onNumbers (ints : Int → Int → Int) (binaries : Binary → Binary → Binary)
    (decimals : Decimal → Decimal → Decimal) (a b : Value) : Option (Except Failure Value) :=
  match a.integer?, b.integer?, a.binary?, b.binary?, a, b with
  | some m, some n, _, _, _, _ => some (.ok (int (ints m n)))
  | _, _, some x, some y, _, _ => some (.ok (double (binaries x y)))
  | some m, _, _, some y, _, _ => some ((doubleOfInt m).map fun x => double (binaries x y))
  | _, some n, some x, _, _, _ => some ((doubleOfInt n).map fun y => double (binaries x y))
  | _, _, _, _, decimal d, decimal e => some (.ok (decimal (decimals d e)))
  | some m, _, _, _, _, decimal e => some (.ok (decimal (decimals (.ofInt m) e)))
  | _, some n, _, _, decimal d, _ => some (.ok (decimal (decimals d (.ofInt n))))
  | _, _, _, _, _, _ => none

def cannotJoin (sequence : String) (b : Value) : Failure :=
  .typeError ("can only concatenate " ++ sequence ++ " (not \"" ++ b.type.qualifiedName ++
    "\") to " ++ sequence)

/-- The sum of two values; the operator is the one that failures name. -/
def plus (operator : String) (a b : Value) : Except Failure Value :=
  match onNumbers (· + ·) Binary.add Decimal.add a b with
  | some r => r
  | none =>
      match a, b with
      | str s, str t => .ok (str (s ++ t))
      | str _, _ => .error (cannotJoin "str" b)
      | list _ xs, list _ ys => .ok (listOf (xs ++ ys))
      | list .., _ => .error (cannotJoin "list" b)
      | tuple xs, tuple ys => .ok (tuple (xs ++ ys))
      | tuple _, _ => .error (cannotJoin "tuple" b)
      | bytes xs, bytes ys => .ok (bytes (xs ++ ys))
      | bytes _, _ => .error (.typeError ("can't concat " ++ b.type.qualifiedName ++ " to bytes"))
      | _, _ => .error (unsupported operator a b)

/-- The items of a sequence repeated. -/
def repeated {α : Type} (n : Int) (xs : List α) : List α :=
  (List.replicate n.toNat xs).flatten

/-- A sequence repeated; values that are no sequence cannot be. -/
def repeat? (n : Int) : Value → Option Value
  | str s => some (str (String.ofList (repeated n s.toList)))
  | list _ xs => some (listOf (repeated n xs))
  | tuple xs => some (tuple (repeated n xs))
  | bytes xs => some (bytes (repeated n xs))
  | _ => none

/-- The product of two values. -/
def times (a b : Value) : Except Failure Value :=
  match onNumbers (· * ·) Binary.mul Decimal.mul a b with
  | some r => r
  | none =>
      match repeat? (b.integer?.getD 0) a, repeat? (a.integer?.getD 0) b with
      | some r, _ =>
          if b.integer?.isSome then .ok r
          else .error (.typeError ("can't multiply sequence by non-int of type '" ++
            b.type.qualifiedName ++ "'"))
      | none, some r =>
          if a.integer?.isSome then .ok r
          else .error (.typeError ("can't multiply sequence by non-int of type '" ++
            a.type.qualifiedName ++ "'"))
      | none, none => .error (unsupported "*" a b)

end Value

end HostedLisp
