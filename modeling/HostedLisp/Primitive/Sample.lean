import HostedLisp.Action
import HostedLisp.Value.Mapping
import HostedLisp.Value.Printer

namespace HostedLisp.Primitive

variable [HostClasses]

/-- Evaluates its parameter, notes the value and answers it. -/
def mark : Primitive := fun e =>
  e.withParameter 0 fun x => .eval x fun v => .note v (.done v)

/-- Evaluates its second parameter in a scope where `x` is bound to the value of the first. -/
def withX : Primitive := fun e =>
  e.withParameter 0 fun x => .eval x fun v =>
    .within [("x", v)] (e.withParameter 1 fun body => .eval body .done) .done

/-- Evaluates a body in a scope where a name is bound to a value. -/
def letName : Primitive := fun e =>
  match e.parameters with
  | [.identifier name _, x, body] =>
      .eval x fun v => .within [(name, v)] (.eval body .done) .done
  | _ => .fail (.refused "let: name, value, body")

/-- Evaluates its first parameter; if that fails, notes the failure and evaluates the second. -/
def attempt : Primitive := fun e =>
  .recover (e.withParameter 0 fun x => .eval x .done)
    (fun f =>
      .note (.str (f.kind ++ ": " ++ f.message)) (e.withParameter 1 fun x => .eval x .done))
    .done

/-- Notes the source text of its invocation and answers how many parameters it has. -/
def capture : Primitive := fun e =>
  .ofExcept ((Value.code e.node).source?) fun text =>
    .note (.str text) (.done (.int e.parameters.length))

/-- Evaluates its parameters in order and answers the last value. -/
def inSequence : Primitive := fun e =>
  .evalAll e.parameters fun vs => .done (vs.getLast?.getD .null)

/-- Evaluates its parameter, whose value has to be a text. -/
def wantText : Primitive := fun e =>
  e.withParameter 0 fun x => .expecting x .str .done

/-- Fails with the text of its parameter's value. -/
def failWith (failure : String → Failure) : Primitive := fun e =>
  e.withParameter 0 fun x => .eval x fun v =>
    .ofExcept v.toText? fun text => .fail (failure text)

/-- Runs its parameter as an invocation. -/
def invokeIt : Primitive := fun e =>
  e.withParameter 0 fun x => .invoke x .done

/-- The keys and values that alternate in a list; a last key without value is left out. -/
def pairs : List Value → List (Value × Value)
  | k :: v :: rest => (k, v) :: pairs rest
  | _ => []

/-- Evaluates its parameters to the keys and values of a map. -/
def makeMap : Primitive := fun e =>
  .evalAll e.parameters fun vs => .ofExcept (Value.mapOf? (pairs vs)) .done

def visibleNames : Primitive := fun _ =>
  .view fun flat => .done (.listOf (flat.map fun b => .str b.1))

def runningNames : Primitive := fun _ =>
  .running fun names => .done (.listOf (names.map Value.str))

/-- Answers the same text always. -/
def constant (s : String) : Primitive := fun _ => .done (.str s)

/-- The primitives of the sample application. -/
def sample : Registry :=
  [("mark", mark), ("with-x", withX), ("let", letName), ("try", attempt), ("capture", capture),
    ("seq", inSequence), ("want-str", wantText), ("fail", failWith .valueError),
    ("refuse", failWith .refused), ("invoke", invokeIt), ("dict", makeMap),
    ("names", visibleNames), ("stack", runningNames), ("const", constant "K"),
    ("const2", constant "K2")]

end HostedLisp.Primitive
