import HostedLisp.Action
import HostedLisp.Scope

/-!
The state of evaluation: scopes, running calls, the node at hand, and the store. Computations
over it keep the state also when they fail, since a report of the failure reads it.
-/

namespace HostedLisp

/-- A call that is running, or that was running when a failure arose. -/
structure Frame where
  name : String
  arguments : List Value
  callSite : Node

/-- The state of evaluation. Frames stand outermost first; those beyond the active ones are
left over from failures. -/
structure Machine where
  scopes : Scopes
  scope : Nat
  frames : List Frame
  activeFrames : Nat
  depth : Nat
  current : Option Value
  store : Store
  tracing : Bool
  trace : List String

/-- The state before anything was evaluated. -/
def Machine.initial : Machine :=
  ⟨.initial, Scopes.root, [], 0, 0, none, .empty, false, []⟩

/-- The result of a computation: a value, a failure, or neither because its fuel ran out. -/
inductive Outcome (α : Type) where
  | ok (value : α)
  | failed (failure : Failure)
  | unfinished

/-- The result with failures alone. -/
def Outcome.ofExcept {α : Type} : Except Failure α → Outcome α
  | .ok a => ok a
  | .error f => failed f

/-- A computation over the state of evaluation. -/
abbrev Run (α : Type) := Machine → Outcome α × Machine

namespace Run

/-- The computation that only answers. -/
def pure {α : Type} (a : α) : Run α := fun m => (.ok a, m)

/-- Two computations in sequence; the second runs only after a value. -/
def bind {α β : Type} (first : Run α) (second : α → Run β) : Run β :=
  fun m =>
    match first m with
    | (.ok a, m') => second a m'
    | (.failed f, m') => (.failed f, m')
    | (.unfinished, m') => (.unfinished, m')

instance : Monad Run where
  pure := pure
  bind := bind

/-- The computation that only fails. -/
def fail {α : Type} (f : Failure) : Run α := fun m => (.failed f, m)

/-- A computation that ran out of fuel. -/
def unfinished {α : Type} : Run α := fun m => (.unfinished, m)

/-- The result of a check. -/
def ofExcept {α : Type} : Except Failure α → Run α
  | .ok a => pure a
  | .error f => fail f

def read : Run Machine := fun m => (.ok m, m)

/-- Changes the state. -/
def modify (f : Machine → Machine) : Run Unit := fun m => (.ok (), f m)

/-- A computation over the store. -/
def ofEffect {α : Type} (e : Effect α) : Run α := fun m =>
  let (r, s) := e m.store
  (.ofExcept r, { m with store := s })

/-- Makes a node or another value the one at hand. -/
def visit (v : Value) : Run Unit := modify fun m => { m with current := some v }

/-- Writes a line to the trace, if there is one. -/
def traceLine (line : String) : Run Unit :=
  modify fun m => if m.tracing then { m with trace := m.trace ++ ["[DBG] " ++ line] } else m

def lookup (name : String) : Run Value := fun m =>
  (.ofExcept ((m.scopes.lookup m.scope name).map Binding.value), m)

/-- Runs an evaluation in a scope, the current one by default. An outermost evaluation forgets
the frames of earlier failures. Whatever the result, the evaluation is one level less deep
afterwards and the scope is the one before. -/
def evaluation {α : Type} (scope : Option Nat) (body : Run α) : Run α := fun m =>
  let entered : Machine :=
    { m with
      frames := if m.depth = 0 then [] else m.frames
      scope := scope.getD m.scope
      depth := m.depth + 1 }
  let (r, m') := body entered
  (r, { m' with scope := m.scope, depth := m'.depth - 1 })

/-- Runs a call under a frame. Frames beyond the active ones are dropped first. The frame goes
when the call answers, and stays for the report when it fails. -/
def framed {α : Type} (frame : Frame) (body : Run α) : Run α := fun m =>
  let base := m.activeFrames
  let entered : Machine :=
    { m with frames := m.frames.take base ++ [frame], activeFrames := base + 1 }
  match body entered with
  | (.ok a, m') => (.ok a, { m' with frames := m'.frames.take base, activeFrames := base })
  | (r, m') => (r, { m' with activeFrames := base })

/-- Runs a computation, and the handler if the evaluation fails in it. -/
def recover {α : Type} (body : Run α) (handler : Failure → Run α) : Run α := fun m =>
  match body m with
  | (.ok a, m') => (.ok a, m')
  | (.failed f, m') => if f.isEvaluation then handler f m' else (.failed f, m')
  | (.unfinished, m') => (.unfinished, m')

/-- Runs a computation in a new scope, which is left whatever the result. -/
def inChild {α : Type} (body : Run α) : Run α := fun m =>
  let (child, scopes) := m.scopes.push m.scope
  let (r, m') := body { m with scopes := scopes, scope := child }
  (r, { m' with scope := m.scope })

/-- Binds a name in the scope at a place. -/
def bindAt (i : Nat) (name : String) (value : Value) : Run Unit := fun m =>
  match m.scopes.bindText i name value with
  | .ok (_, scopes) => (.ok (), { m with scopes := scopes })
  | .error f => (.failed f, m)

def bindHere (name : String) (value : Value) : Run Unit := fun m =>
  bindAt m.scope name value m

/-- Runs a computation for each item in order. -/
def mapAll {α β : Type} (f : α → Run β) : List α → Run (List β)
  | [] => pure []
  | x :: xs => bind (f x) fun y => bind (mapAll f xs) fun ys => pure (y :: ys)

def addScope (parent : Option Nat) (bindings : List (String × Value)) : Run Nat := fun m =>
  let (i, scopes) := m.scopes.add parent
  bind (mapAll (fun (b : String × Value) => bindAt i b.1 b.2) bindings) (fun _ => pure i)
    { m with scopes := scopes }

/-- The place of a scope that a primitive names. -/
def scopeOf : ScopeRef → Run (Option Nat)
  | .absent => pure none
  | .here => fun m => (.ok (some m.scope), m)
  | .parent r => bind (scopeOf r) fun
      | none => fail (.attributeError "'NoneType' object has no attribute 'parent'")
      | some i => fun m => (.ok (m.scopes.parent? i), m)
  | .child r bindings => bind (scopeOf r) fun parent =>
      bind (addScope parent bindings) fun i => pure (some i)

end Run

end HostedLisp
