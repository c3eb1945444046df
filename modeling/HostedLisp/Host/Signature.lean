import HostedLisp.Host.Classes

namespace HostedLisp

/-- How a parameter takes its arguments. -/
inductive ParameterKind where
  | positionalOnly
  | positional
  | collecting
  | keywordOnly
  | collectingKeywords
deriving Repr, DecidableEq

/-- A parameter: its name, its kind, the type of its arguments if one is demanded, and whether
it has a default. -/
structure Parameter where
  name : String
  kind : ParameterKind
  type : Option ValueType
  hasDefault : Bool
deriving Repr, DecidableEq

namespace Parameter

/-- A positional parameter of any type without default. -/
def plain (name : String) : Parameter := ⟨name, .positional, none, false⟩

/-- A positional parameter of a type without default. -/
def typed (name : String) (type : ValueType) : Parameter := ⟨name, .positional, some type, false⟩

/-- The same parameter with a default. -/
def withDefault (p : Parameter) : Parameter := { p with hasDefault := true }

/-- The same parameter, given only by keyword. -/
def byKeyword (p : Parameter) : Parameter := { p with kind := .keywordOnly }

/-- The same parameter, collecting all further arguments. -/
def collectingRest (p : Parameter) : Parameter := { p with kind := .collecting }

/-- Whether the parameter takes one positional argument. -/
def isPositional (p : Parameter) : Bool :=
  p.kind == .positionalOnly || p.kind == .positional

/-- Whether an argument of a type may go to the parameter. Null goes only where no type is
demanded; else the type that is demanded decides. -/
def allows [HostClasses] (p : Parameter) (t : ValueType) : Except Failure Bool :=
  match p.type with
  | none => .ok true
  | some wanted => if t = .null then .ok false else HostClasses.isSubclass t wanted

/-- Whether arguments of types may all go to the parameter. The first that may not is the last one
asked about. -/
def allowsAll [HostClasses] (p : Parameter) : List ValueType → Except Failure Bool
  | [] => .ok true
  | t :: types => do if ← p.allows t then p.allowsAll types else return false

/-- Whether the parameter can do without an argument. -/
def isOptional (p : Parameter) : Bool :=
  p.hasDefault || p.kind == .collecting || p.kind == .collectingKeywords

end Parameter

/-- A signature: the parameters in order. -/
abbrev Signature := List Parameter

namespace Signature

/-- Whether a number of positional arguments can be given to the parameters. -/
def binds : Signature → Nat → Bool
  | [], n => n == 0
  | p :: rest, 0 => p.isOptional && binds rest 0
  | p :: rest, n + 1 =>
      if p.isPositional then binds rest n
      else p.kind == .collecting && binds rest 0

/-- Whether the parameters that positional arguments go to allow their types, in order. -/
def allows [HostClasses] : Signature → List ValueType → Except Failure Bool
  | _, [] => .ok true
  | [], _ => .ok true
  | p :: rest, t :: types =>
      if p.isPositional then do
        if ← p.allows t then allows rest types else return false
      else p.allowsAll (t :: types)

end Signature

/-- Whether a function accepts positional arguments of the given types, if asking about these does
not fail. One without a known signature accepts all, and types are asked about only if the number
of arguments is possible. -/
def signatureAccepts [HostClasses] (signature : Option Signature) (types : List ValueType) :
    Except Failure Bool :=
  match signature with
  | some s => if s.binds types.length then s.allows types else .ok false
  | none => .ok true

end HostedLisp
