import HostedLisp.Failure

/-!
What the classes of the host decide by themselves: how their objects are shown, and which classes
are subclasses of which. Nothing of it is known here, so that all that is said about evaluation
holds for every choice.
-/

namespace HostedLisp

/-- An object as its class sees it when it shows it: which one it is, its class, and its attributes
with the inspected forms of their values. -/
structure ObjectView where
  id : Identity
  className : String
  attributes : List (String × Value × Except Failure String)

/-- The classes of the host. Showing an object may fail and may tell which object it is, and so may
showing a class, a module or a function. Whether a class is a subclass of another one is up to the
latter; it need not carry over from one class to the next, and asking may fail. -/
class HostClasses where
  inspectObject : ObjectView → Except Failure String
  displayObject : ObjectView → Except Failure String
  inspectHandle : Handle → Except Failure String
  inspectCallable : String → Except Failure String
  isSubclass : ValueType → ValueType → Except Failure Bool

namespace Value

variable [HostClasses]

/-- Whether a value is of a type. For a class of the host the class decides it. -/
def isInstance? (v : Value) : ValueType → Except Failure Bool
  | .object className => HostClasses.isSubclass v.type (.object className)
  | t => .ok (v.isOf t)

/-- Whether a value may stand where a type is declared. Null may stand everywhere. -/
def suits? (v : Value) (t : ValueType) : Except Failure Bool :=
  if v.isNull then .ok true else v.isInstance? t

end Value

end HostedLisp
