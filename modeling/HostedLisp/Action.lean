import HostedLisp.Host.Basic

/-!
What a primitive does with the parameters of its invocation, which it receives unevaluated.
An action is a tree of requests to the evaluator: it asks for one step, goes on with the
answer, and ends with a value or a failure. So a primitive can evaluate, open scopes and
recover from failures, and can do nothing else with the state of the evaluator.
-/

namespace HostedLisp

/-- A scope that a primitive names: none at all, the current one, the parent of one, or a new
child of one, which has no parent if that one is absent. -/
inductive ScopeRef where
  | absent
  | here
  | parent (of : ScopeRef)
  | child (of : ScopeRef) (bindings : List (String × Value))
deriving Inhabited

/-- The requests of a primitive. -/
inductive Action where
  /-- Ends with a value. -/
  | done (value : Value)
  /-- Ends with a failure. -/
  | fail (failure : Failure)
  /-- Evaluates a node in the current scope. -/
  | eval (node : Node) (next : Value → Action)
  /-- Evaluates a node in a scope that is named, or in the current one if that is absent. -/
  | evalIn (scope : ScopeRef) (node : Node) (next : Value → Action)
  /-- Runs an invocation without counting it as an evaluation of its own. -/
  | invoke (node : Node) (next : Value → Action)
  /-- Runs a body in a new scope with some bindings. -/
  | within (bindings : List (String × Value)) (body : Action) (next : Value → Action)
  /-- Binds a name in the current scope. -/
  | bind (name : String) (value : Value) (next : Action)
  /-- Runs a body, and the handler if the evaluation fails in it. -/
  | recover (body : Action) (handler : Failure → Action) (next : Value → Action)
  /-- Brings values up to date. -/
  | settle (values : List Value) (next : List Value → Action)
  /-- Sees all names in scope with their values. -/
  | view (next : List (String × Value) → Action)
  /-- Sees the names of the running calls, outermost first. -/
  | running (next : List String → Action)
  /-- Has a computation done over the store. -/
  | effect (computation : Effect Value) (next : Value → Action)
  /-- Notes a value. -/
  | note (value : Value) (next : Action)
  /-- Writes a line to the trace. -/
  | trace (line : String) (next : Action)
deriving Inhabited

namespace Action

/-- Goes on with a result or fails. -/
def ofExcept {α : Type} (r : Except Failure α) (next : α → Action) : Action :=
  match r with
  | .ok a => next a
  | .error f => fail f

/-- Evaluates nodes in order, whose values are then seen as they are after the last of them. -/
def evalAll (nodes : List Node) (next : List Value → Action) : Action :=
  go nodes []
where
  /-- Evaluates the remaining nodes, with the values so far in reverse. -/
  go : List Node → List Value → Action
    | [], values => .settle values.reverse next
    | x :: rest, values => .eval x fun v => go rest (v :: values)

def expecting (node : Node) (wanted : ValueType) (next : Value → Action) : Action :=
  .eval node fun v => if v.isOf wanted then next v else .fail (.expected wanted v.type)

end Action

/-- An invocation as its primitive receives it. -/
structure Invocation where
  head : Node
  parameters : List Node
  span : Span

namespace Invocation

def node (e : Invocation) : Node := .invocation e.head e.parameters e.span

/-- Goes on with the parameter at a place. -/
def withParameter (e : Invocation) (i : Nat) (next : Node → Action) : Action :=
  match e.parameters[i]? with
  | some x => next x
  | none => .fail (.outOfRange "tuple")

end Invocation

/-- A primitive: what it does with an invocation of it. -/
abbrev Primitive := Invocation → Action

abbrev Registry := List (String × Primitive)

namespace Registry

def find? (r : Registry) (name : String) : Option Primitive :=
  (List.find? (fun e => e.1 == name) r).map Prod.snd

def contains (r : Registry) (name : String) : Bool :=
  r.any fun e => e.1 == name

/-- Adds a primitive under a name that is not taken. A registration without a primitive is
refused. -/
def register (r : Registry) (name : String) (p : Option Primitive) : Except Failure Registry :=
  if name.isEmpty then .error (.registration .emptyName)
  else
    match p with
    | none => .error (.registration (.notCallable name))
    | some p =>
        if r.contains name then .error (.registration (.duplicate name)) else .ok (r ++ [(name, p)])

/-- The registered names in order of their characters. -/
def names (r : Registry) : List String :=
  (r.map Prod.fst).mergeSort fun a b => a ≤ b

end Registry

end HostedLisp
