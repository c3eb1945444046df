import HostedLisp.Machine

/-!
Evaluation. Literals and quotes are their own values, names are looked up, lists are evaluated
item by item, and an invocation calls a primitive with its parameters unevaluated or a member
of the host with their values. Evaluation of some scripts does not end, so the number of
nested steps is bounded by fuel; a result other than running out of fuel does not depend on it.
-/

namespace HostedLisp

/-- What evaluation works with: the application and the registered primitives. -/
structure Setting where
  host : Host
  primitives : Registry

/-- How the kind of a value that is no expression is named. -/
def Value.expressionKind : Value → String
  | code node => "SExprKind." ++ node.kind.name
  | v => v.type.name

/-- The failure of evaluating a value that is no expression. -/
def notAnExpression (v : Value) : Failure := .unknownExpression v.expressionKind

/-- Names in a list, as the trace shows them. -/
def namesText (names : List String) : String :=
  "[" ++ commaSeparated (names.map Text.quoted) ++ "]"

namespace Setting

/-- Runs a member of the host under a frame. Its arguments are up to date when it starts. -/
def callMember (env : Setting) (frame : Frame) (member : Member) (arguments : List Value) :
    Run Value :=
  Run.framed frame <| Run.ofEffect do
    let s ← Effect.read
    let v ← env.host.call { member with target := s.settle member.target } (s.settleAll arguments)
    Effect.adopt v

def resolveMember (env : Setting) (target : Value) (name : String)
    (types : Option (List ValueType)) : Run (Option Member) :=
  Run.ofEffect do
    let s ← Effect.read
    env.host.resolveMember (s.settle target) name types

/-- Invokes a member of a type or module. Failures after the arguments were evaluated belong to
the invocation. -/
def invokeStatic (env : Setting) (evaluate : Node → Run Value) (path : List String)
    (member : String) (e : Invocation) : Run Value := do
  match ← Run.ofEffect (env.host.resolveType path) with
  | none => Run.fail (.unresolvedType (Node.dotted path))
  | some target =>
      let arguments ← Run.mapAll evaluate e.parameters
      Run.visit (.code e.node)
      match ← env.resolveMember target member none with
      | none => Run.fail (.noStaticMember member (Node.dotted path))
      | some m =>
          Run.traceLine ("static " ++ Node.dotted path ++ " " ++ member ++ " argc " ++
            toString arguments.length)
          env.callMember ⟨e.head.headName, arguments, e.node⟩ m arguments

/-- Invokes a member of the value of the first parameter. -/
def invokeInstance (env : Setting) (evaluate : Node → Run Value) (member : String)
    (e : Invocation) : Run Value := do
  match e.parameters with
  | [] => Run.fail (.missingReceiver member)
  | x :: rest =>
      let receiver ← evaluate x
      Run.visit (.code e.node)
      if receiver.isNull then
        Run.fail (.nullReceiver member)
      else
        let arguments ← Run.mapAll evaluate rest
        Run.visit (.code e.node)
        let types := arguments.map Value.type
        match ← env.resolveMember receiver member (some types) with
        | none => Run.fail (.noMember member receiver.type)
        | some m =>
            Run.traceLine ("instance " ++ receiver.type.name ++ " " ++ member ++ " arg_types " ++
              namesText (types.map ValueType.name))
            env.callMember ⟨e.head.headName, receiver :: arguments, e.node⟩ m arguments

mutual

def dispatch (env : Setting) : Nat → Node → Run Value
  | 0, _ => Run.unfinished
  | fuel + 1, x => do
      Run.visit (.code x)
      match x with
      | .error message span => Run.fail (.ofErrorNode message span)
      | .literal value _ => pure (Value.ofLiteral value)
      | .identifier name _ => Run.lookup name
      | .list xs _ =>
          let vs ← Run.mapAll (dispatch env fuel) xs
          Run.ofEffect (Effect.adopt (.listOf vs))
      | .quote .. => pure (.code x)
      | .invocation head parameters span => invoke env fuel ⟨head, parameters, span⟩
      | .instanceMember .. => Run.fail (notAnExpression (.code x))
      | .staticMember .. => Run.fail (notAnExpression (.code x))

def invoke (env : Setting) : Nat → Invocation → Run Value
  | 0, _ => Run.unfinished
  | fuel + 1, e =>
      match e.head with
      | .identifier name _ =>
          match env.primitives.find? name with
          | none => Run.fail (.undefinedFunction name)
          | some p => do
              Run.traceLine ("extern " ++ name ++ " argc " ++ toString e.parameters.length)
              Run.framed ⟨name, e.parameters.map Value.code, e.node⟩ (perform env fuel (p e))
      | .staticMember path member _ => env.invokeStatic (dispatch env fuel) path member e
      | .instanceMember member _ => env.invokeInstance (dispatch env fuel) member e
      | _ => Run.fail (.invalidHead e.head.headName)

def perform (env : Setting) : Nat → Action → Run Value
  | 0, _ => Run.unfinished
  | fuel + 1, a =>
      match a with
      | .done v => Run.ofEffect (Effect.adopt v)
      | .fail f => Run.fail f
      | .eval x next => do
          let v ← Run.evaluation none (dispatch env fuel x)
          let v ← Run.ofEffect (Effect.settle v)
          perform env fuel (next v)
      | .evalIn r x next => do
          let scope ← Run.scopeOf r
          let v ← Run.evaluation scope (dispatch env fuel x)
          let v ← Run.ofEffect (Effect.settle v)
          perform env fuel (next v)
      | .invoke x next => do
          let v ← invokeNode env fuel x
          let v ← Run.ofEffect (Effect.settle v)
          perform env fuel (next v)
      | .within bindings body next => do
          let v ← Run.inChild do
            let _ ← Run.mapAll (fun (b : String × Value) => Run.bindHere b.1 b.2) bindings
            perform env fuel body
          perform env fuel (next v)
      | .bind name v next => do
          Run.bindHere name v
          perform env fuel next
      | .recover body handler next => do
          let v ← Run.recover (perform env fuel body) fun f => perform env fuel (handler f)
          perform env fuel (next v)
      | .settle vs next => do
          let s ← Run.ofEffect Effect.read
          perform env fuel (next (s.settleAll vs))
      | .view next => do
          let m ← Run.read
          let flat := (m.scopes.chain m.scope).flatten
          perform env fuel (next (flat.map fun e => (e.1, m.store.settle e.2)))
      | .running next => do
          let m ← Run.read
          perform env fuel (next (m.frames.map Frame.name))
      | .effect computation next => do
          let v ← Run.ofEffect computation
          let v ← Run.ofEffect (Effect.adopt v)
          perform env fuel (next v)
      | .note v next => do
          Run.ofEffect (Effect.modify fun s => s.record (.noted v))
          perform env fuel next
      | .trace line next => do
          Run.traceLine line
          perform env fuel next

def invokeNode (env : Setting) : Nat → Node → Run Value
  | 0, _ => Run.unfinished
  | fuel + 1, x =>
      match x with
      | .invocation head parameters span => invoke env fuel ⟨head, parameters, span⟩
      | x =>
          Run.fail (.attributeError ("'" ++ (Value.code x).type.name ++
            "' object has no attribute 'identifier'"))

end

/-- The fuel of evaluations from outside, which is more than any script that ends in practice
nests steps. -/
def ample : Nat := 10000000

/-- Evaluates a node in a scope, the current one by default. -/
def eval (env : Setting) (x : Node) (scope : Option Nat) : Run Value :=
  Run.evaluation scope (dispatch env ample x)

/-- Evaluates a value; one that is no expression is refused. -/
def evalValue (env : Setting) (v : Value) : Run Value :=
  match v with
  | .code x => env.eval x none
  | v => Run.evaluation none do
      Run.visit v
      Run.fail (notAnExpression v)

/-- Evaluates nodes in order. -/
def evalAll (env : Setting) (xs : List Node) : Run (List Value) :=
  Run.mapAll (fun x => env.eval x none) xs

def evalExpecting (env : Setting) (x : Node) (wanted : ValueType) : Run Value := do
  let v ← env.eval x none
  if v.isOf wanted then pure v else Run.fail (.expected wanted v.type)

/-- Runs an invocation from outside. -/
def invokeFrom (env : Setting) (x : Node) : Run Value :=
  invokeNode env ample x

end Setting

end HostedLisp
