import HostedLisp.Store

namespace HostedLisp

/-- A computation of the host over the store, which is kept also when it fails. -/
abbrev Effect (α : Type) := Store → Except Failure α × Store

namespace Effect

/-- The computation that only answers. -/
def pure {α : Type} (a : α) : Effect α := fun s => (.ok a, s)

/-- The computation that only fails. -/
def fail {α : Type} (f : Failure) : Effect α := fun s => (.error f, s)

/-- Two computations in sequence. -/
def bind {α β : Type} (first : Effect α) (second : α → Effect β) : Effect β :=
  fun s =>
    match first s with
    | (.ok a, s') => second a s'
    | (.error f, s') => (.error f, s')

instance : Monad Effect where
  pure := pure
  bind := bind

/-- A computation of the store alone. -/
def ofExcept {α : Type} : Except Failure α → Effect α
  | .ok a => pure a
  | .error f => fail f

def read : Effect Store := fun s => (.ok s, s)

def modify (f : Store → Store) : Effect Unit := fun s => (.ok (), f s)

/-- A value with identities given to its new lists and objects. -/
def adopt (v : Value) : Effect Value := fun s =>
  let (v, s) := s.adopt v
  (.ok v, s)

def settle (v : Value) : Effect Value := fun s => (.ok (s.settle v), s)

end Effect

/-- A member to be called: a method of a target, or a property of it, which is read by a call
without arguments and written by one with a single argument. -/
structure Member where
  target : Value
  name : String
  isProperty : Bool
deriving Inhabited

/-- An application as evaluation sees it. -/
structure Host where
  resolveType : List String → Effect (Option Value)
  resolveMember : Value → String → Option (List ValueType) → Effect (Option Member)
  call : Member → List Value → Effect Value

end HostedLisp
