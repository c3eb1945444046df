import HostedLisp.Source.Parser
import HostedLisp.Value.Basic

namespace HostedLisp

/-- Why a primitive was not registered. -/
inductive RegistrationFault where
  | emptyName
  | notCallable (name : String)
  | duplicate (name : String)
deriving Repr, DecidableEq

/-- Failures of evaluation, registration and the host. -/
inductive Failure where
  | syntaxError (message : String) (token : Token)
  | undefinedIdentifier (name : String)
  | undefinedFunction (name : String)
  | arity (name wanted : String)
  | missingReceiver (member : String)
  | notQuoted
  | conditionKind (found : ValueType)
  | expected (wanted found : ValueType)
  | listItem (name : String) (number : Nat)
  | contextNotMapping
  | unresolvedType (path : String)
  | noStaticMember (member path : String)
  | noMember (member : String) (receiver : ValueType)
  | nullReceiver (member : String)
  | unknownExpression (kind : String)
  | invalidHead (name : String)
  | refused (message : String)
  | registration (fault : RegistrationFault)
  | foreign (kind message : String)
deriving Repr, DecidableEq, Inhabited

namespace Failure

/-- The failure of an operation on values of types that it does not accept. -/
def typeError (message : String) : Failure := foreign "TypeError" message

/-- The failure of an operation on a value that it does not accept. -/
def valueError (message : String) : Failure := foreign "ValueError" message

def attributeError (message : String) : Failure := foreign "AttributeError" message

/-- The failure of reading or writing YAML. -/
def yamlError (message : String) : Failure := foreign "YAMLError" message

/-- A position beyond the end. -/
def outOfRange (container : String) : Failure :=
  foreign "IndexError" (container ++ " index out of range")

def tooManyDigits : Failure :=
  valueError <| "Exceeds the limit (" ++ toString Number.digitLimit ++
    " digits) for integer string conversion; use sys.set_int_max_str_digits() to increase the limit"

def tooManyDigitsToRead (count : Nat) : Failure :=
  valueError <| "Exceeds the limit (" ++ toString Number.digitLimit ++
    " digits) for integer string conversion: value has " ++ toString count ++
    " digits; use sys.set_int_max_str_digits() to increase the limit"

/-- The class of a failure in reports. -/
def kind : Failure → String
  | syntaxError .. => "ParseError"
  | undefinedIdentifier _ => "UndefinedIdentifier"
  | undefinedFunction _ => "UndefinedFunction"
  | arity .. => "ArityError"
  | missingReceiver _ => "ArityError"
  | notQuoted => "EvalTypeError"
  | conditionKind _ => "EvalTypeError"
  | expected .. => "EvalTypeError"
  | listItem .. => "EvalTypeError"
  | contextNotMapping => "EvalTypeError"
  | unresolvedType _ => "HostResolutionError"
  | noStaticMember .. => "HostResolutionError"
  | noMember .. => "HostResolutionError"
  | nullReceiver _ => "HostResolutionError"
  | unknownExpression _ => "EvalError"
  | invalidHead _ => "EvalError"
  | refused _ => "EvalError"
  | registration _ => "RegistrationError"
  | foreign kind _ => kind

/-- Whether a primitive can recover from the failure: the failures of evaluation, not those of
the host, of reading or of registering. -/
def isEvaluation : Failure → Bool
  | syntaxError .. => false
  | registration _ => false
  | foreign .. => false
  | _ => true

/-- The name of a primitive as messages show it. -/
def marked (name : String) : String := "\x60" ++ name ++ "\x60"

/-- The wording of a failed registration. -/
def registrationMessage : RegistrationFault → String
  | .emptyName => "name cannot be empty or null"
  | .notCallable name => "extern '" ++ name ++ "' must be callable"
  | .duplicate name => "A function with the name '" ++ name ++ "' is already defined"

def message : Failure → String
  | syntaxError message token =>
      "MiniLISP error(pos " ++ toString token.position ++ "): " ++ message
  | undefinedIdentifier name => "Undefined identifier '" ++ name ++ "'"
  | undefinedFunction name => "Undefined function '" ++ name ++ "'"
  | arity name wanted => marked name ++ " requires " ++ wanted
  | missingReceiver member =>
      "Member invocation '." ++ member ++ "' requires a receiver parameter"
  | notQuoted => marked "eval" ++ " parameter must be a quoted s-expression"
  | conditionKind found =>
      marked "if" ++ " condition parameter must be a boolean or reference type, got " ++ found.name
  | expected wanted found =>
      "Expecting a value of type " ++ wanted.name ++ " but got type " ++
        (if found = .null then "null" else found.name)
  | listItem name number =>
      marked name ++ " list item " ++ toString number ++ " must evaluate to a string"
  | contextNotMapping => marked "render" ++ " context must evaluate to a mapping"
  | unresolvedType path => "Could not resolve type '" ++ path ++ "'"
  | noStaticMember member path =>
      "Could not find static member '" ++ member ++ "' on type '" ++ path ++ "'"
  | noMember member receiver =>
      "Could not find member '" ++ member ++ "' on type '" ++ receiver.name ++ "'"
  | nullReceiver member => "Cannot invoke member '" ++ member ++ "' on a null receiver"
  | unknownExpression kind => "Unknown expression kind: '" ++ kind ++ "'"
  | invalidHead name => "Invalid function identifier in invocation '" ++ name ++ "'"
  | refused message => message
  | registration fault => registrationMessage fault
  | foreign _ message => message

/-- The failure of evaluating a node that stands for a failed parse. A node that was not read
from a text is reported at the start of it. -/
def ofErrorNode (message : String) (span : Span) : Failure :=
  syntaxError message (span.start.getD ⟨0, .fault, some message⟩)

/-- The failure of reading a text. -/
def ofSyntaxError (e : SyntaxError) : Failure :=
  syntaxError e.message e.start

end Failure

end HostedLisp
