import HostedLisp.Value.Mapping
import HostedLisp.Value.Printer

namespace HostedLisp

/-- A binding: a name, the type that its value was declared to have, and the value. -/
structure Binding where
  name : String
  declared : Option ValueType
  value : Value
deriving Inhabited

/-- The bindings of one scope, in the order in which their names were first bound. -/
abbrev Bindings := List Binding

namespace Bindings

def find? (bs : Bindings) (name : String) : Option Binding :=
  List.find? (fun b => b.name == name) bs

/-- Adds a binding, in the place of an earlier one of the same name. -/
def insert (b : Binding) : Bindings → Bindings
  | [] => [b]
  | c :: rest => if c.name = b.name then b :: rest else c :: insert b rest

def names (bs : Bindings) : List String := bs.map Binding.name

end Bindings

/-- The refusal of what cannot be bound as a name, by its inspected form. -/
def notBindable (inspected : String) : Failure :=
  .typeError ("Scope key must be a non-empty str, not " ++ inspected)

namespace Binding

/-- A binding of a text, which must not be empty, to a value of any type. -/
def ofText? (name : String) (value : Value) : Except Failure Binding :=
  if name.isEmpty then .error (notBindable (Text.quoted name)) else .ok ⟨name, none, value⟩

variable [HostClasses]

/-- A binding with a declared type, which its value must have. -/
def declare (b : Binding) (t : ValueType) : Except Failure Binding := do
  if ← b.value.suits? t then return { b with declared := some t }
  else
    .error (.typeError ("Cannot bind '" ++ b.name ++ "': expected " ++ t.name ++ ", got " ++
      b.value.type.name))

/-- A binding of a value as a name, with a declared type or none. Only texts are names. -/
def of? (name : Value) (declared : Option ValueType) (value : Value) : Except Failure Binding := do
  match name with
  | .str text =>
      let b ← ofText? text value
      match declared with
      | some t => b.declare t
      | none => return b
  | v => .error (notBindable (← v.inspect?))

end Binding

/-- The bindings that a scope sees, innermost first. -/
abbrev Chain := List Bindings

namespace Chain

/-- The binding of a name in the innermost scope that has one. -/
def lookup? (chain : Chain) (name : String) : Option Binding :=
  chain.findSome? fun bs => bs.find? name

/-- Sets the value of a name in a flat list: in place if it is there, at the end otherwise. -/
def setName (name : String) (value : Value) : List (String × Value) → List (String × Value)
  | [] => [(name, value)]
  | (n, v) :: rest =>
      if n = name then (n, value) :: rest else (n, v) :: setName name value rest

/-- The flat list after the bindings of one more scope, which hide those of its ancestors. -/
def overlay (flat : List (String × Value)) (bs : Bindings) : List (String × Value) :=
  bs.foldl (fun acc b => setName b.name b.value acc) flat

/-- All names that a chain binds, with the value that each has in it. -/
def flatten : Chain → List (String × Value)
  | [] => []
  | bs :: outer => overlay (flatten outer) bs

end Chain

/-- A scope in a tree of scopes. -/
structure Scope where
  parent : Option Nat
  bindings : Bindings
deriving Inhabited

/-- A tree of scopes, each known by its place; a parent comes before its children. -/
structure Scopes where
  all : List Scope
deriving Inhabited

namespace Scopes

/-- The tree that has only the root, which binds nothing. -/
def initial : Scopes := ⟨[⟨none, []⟩]⟩

/-- The place of the root. -/
def root : Nat := 0

/-- The scope at a place and its ancestors, innermost first. -/
def path (s : Scopes) (i : Nat) : List Nat :=
  match (s.all[i]?).bind Scope.parent with
  | some p => if p < i then i :: path s p else [i]
  | none => [i]
termination_by i

/-- The bindings of the scope at a place alone. -/
def own (s : Scopes) (i : Nat) : Bindings :=
  (s.all[i]?.map Scope.bindings).getD []

/-- What the scope at a place sees. -/
def chain (s : Scopes) (i : Nat) : Chain :=
  (s.path i).map s.own

/-- The innermost scope on the way to the root that binds a name. -/
def owner? (s : Scopes) (i : Nat) (name : String) : Option Nat :=
  (s.path i).find? fun j => ((s.own j).find? name).isSome

/-- The next scope on the way from the scope at a place to the root. -/
def parent? (s : Scopes) (i : Nat) : Option Nat :=
  (s.path i)[1]?

/-- Adds a scope with a parent, if it has one; its place comes with the new tree. -/
def add (s : Scopes) (parent : Option Nat) : Nat × Scopes :=
  (s.all.length, ⟨s.all ++ [⟨parent, []⟩]⟩)

/-- Opens a child of the scope at a place. -/
def push (s : Scopes) (i : Nat) : Nat × Scopes :=
  s.add (some i)

/-- Adds a binding to the scope at a place. -/
def insert (s : Scopes) (i : Nat) (b : Binding) : Scopes :=
  ⟨s.all.modify i fun sc => { sc with bindings := sc.bindings.insert b }⟩

/-- Binds a text in the scope at a place. -/
def bindText (s : Scopes) (i : Nat) (name : String) (value : Value) :
    Except Failure (Binding × Scopes) := do
  let b ← Binding.ofText? name value
  return (b, s.insert i b)

/-- Binds a value as a name in the scope at a place. -/
def bind [HostClasses] (s : Scopes) (i : Nat) (name : Value) (declared : Option ValueType)
    (value : Value) : Except Failure (Binding × Scopes) := do
  let b ← Binding.of? name declared value
  return (b, s.insert i b)

/-- The binding of a name as seen from the scope at a place. -/
def lookup (s : Scopes) (i : Nat) (name : String) : Except Failure Binding :=
  match (s.chain i).lookup? name with
  | some b => .ok b
  | none => .error (.undefinedIdentifier name)

/-- The binding of a value as a name. Only texts are bound, and a value that can change is not
even looked up. -/
def seek (s : Scopes) (i : Nat) (name : Value) : Except Failure (Option Binding) := do
  name.checkKey
  match name with
  | .str text => return (s.chain i).lookup? text
  | _ => return none

/-- The binding of a value as a name, which has to be bound. -/
def require [HostClasses] (s : Scopes) (i : Nat) (name : Value) : Except Failure Binding := do
  match ← s.seek i name with
  | some b => return b
  | none => .error (.undefinedIdentifier (← name.display?))

/-- Whether a value is bound as a name. -/
def contains (s : Scopes) (i : Nat) (name : Value) : Bool :=
  ((s.seek i name).toOption.join).isSome

/-- The value that a value is bound to as a name, or a default. -/
def get (s : Scopes) (i : Nat) (name default : Value) : Except Failure Value := do
  return ((← s.seek i name).map Binding.value).getD default

/-- A line that shows the names bound in the scope at a place. -/
def inspect (s : Scopes) (i : Nat) : String :=
  "<Scope bindings=[" ++ commaSeparated (s.own i).names ++ "]>"

end Scopes

end HostedLisp
