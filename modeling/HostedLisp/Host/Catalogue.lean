import HostedLisp.Host.Basic
import HostedLisp.Host.Signature

namespace HostedLisp

/-- What an attribute is: a method with its signature, if that is known, and whether it is
marked as meant for scripts; or data. -/
inductive Attribute where
  | method (signature : Option Signature) (marked : Bool)
  | data

/-- The members of values, and the modules that can be imported by their path. -/
structure Catalogue where
  attribute? : Store → Value → String → Option Attribute
  read : Value → String → Effect Value
  write : Value → String → Value → Effect Unit
  call : Value → String → List Value → Effect Value
  module? : String → Option Value

/-- The failure of reading an attribute that is not there. -/
def missingAttribute (target : Value) (name : String) : Failure :=
  match target with
  | .handle (.classOf c) => missing ("type object '" ++ c ++ "'")
  | .handle (.moduleOf m) => missing ("module '" ++ m ++ "'")
  | v => missing ("'" ++ v.type.name ++ "' object")
where
  /-- The failure for an owner in words. -/
  missing (owner : String) : Failure :=
    .attributeError (owner ++ " has no attribute '" ++ name ++ "'")

/-- A count of things, with the ending of the plural. -/
def counted (n : Nat) (thing : String) : String :=
  toString n ++ " " ++ thing ++ (if n = 1 then "" else "s")

/-- Names in quotes, set between commas and "and". -/
def namesInWords : List String → String
  | [] => ""
  | [a] => "'" ++ a ++ "'"
  | [a, b] => "'" ++ a ++ "' and '" ++ b ++ "'"
  | a :: rest => go ("'" ++ a ++ "'") rest
where
  /-- The names after the first two. -/
  go (acc : String) : List String → String
    | [] => acc
    | [b] => acc ++ ", and '" ++ b ++ "'"
    | b :: rest => go (acc ++ ", '" ++ b ++ "'") rest

namespace Signature

def positional (s : Signature) : Signature := s.filter Parameter.isPositional

/-- How many positional arguments a function takes, where `hidden` of them are not shown in its
signature. -/
def arityText (s : Signature) (hidden : Nat) : String :=
  let most := s.positional.length + hidden
  let least := (s.positional.filter fun p => !p.hasDefault).length + hidden
  if least = most then counted most "positional argument"
  else "from " ++ toString least ++ " to " ++ toString most ++ " positional arguments"

/-- Why a function cannot be called with a number of positional arguments, if so. Arguments that
are too many are reported before parameters that get none. -/
def callFault? (s : Signature) (name : String) (hidden given : Nat) : Option Failure :=
  let missing := (s.positional.drop given).filter fun p => !p.hasDefault
  let missingKeywords := s.filter fun p => p.kind == .keywordOnly && !p.hasDefault
  let names (ps : Signature) := namesInWords (ps.map Parameter.name)
  if s.positional.length < given && !s.any (·.kind == .collecting) then
    let total := given + hidden
    some (.typeError (name ++ "() takes " ++ s.arityText hidden ++ " but " ++ toString total ++
      (if total = 1 then " was given" else " were given")))
  else if !missing.isEmpty then
    some (.typeError (name ++ "() missing " ++
      counted missing.length "required positional argument" ++ ": " ++ names missing))
  else if !missingKeywords.isEmpty then
    some (.typeError (name ++ "() missing " ++
      counted missingKeywords.length "required keyword-only argument" ++ ": " ++
      names missingKeywords))
  else none

end Signature

end HostedLisp
