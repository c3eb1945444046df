import HostedLisp.Failure
import HostedLisp.Value.Change

/-!
The memory that evaluation shares with the host: the changes made to lists and objects, the
identities given out, and what was noted on the way. Settling a value brings it up to date with
all changes.
-/

namespace HostedLisp

/-- What a run leaves behind besides its value. An attribute is read as a member of a value, or to
find a type: then it is the last part of a path whose other parts name a module. -/
inductive Event where
  | noted (value : Value)
  | typeRequested (path : List String)
  | memberRequested (target name : String) (types : Option (List ValueType))
  | attributeRead (name : String)
  | typeRead (path : List String)
  | attributeWritten (name : String)

/-- The shared memory. Changes and events stand in the order in which they happened. -/
structure Store where
  changes : List Change
  nextIdentity : Identity
  events : List Event

namespace Store

/-- The memory before anything happened. -/
def empty : Store := ⟨[], 1, []⟩

/-- A value as it is after all changes. -/
def settle (s : Store) (v : Value) : Value :=
  s.changes.foldl (fun v c => v.update c) v

/-- Values as they are after all changes. -/
def settleAll (s : Store) (vs : List Value) : List Value :=
  vs.map s.settle

/-- Gives the new lists and objects in a value their identities. -/
def adopt (s : Store) (v : Value) : Value × Store :=
  let (v, next) := v.place s.nextIdentity
  (v, { s with nextIdentity := next })

def change (s : Store) (c : Change) : Store :=
  { s with changes := s.changes ++ [c] }

def record (s : Store) (e : Event) : Store :=
  { s with events := s.events ++ [e] }

def setItems (s : Store) (id : Identity) (items : List Value) : Store :=
  s.change (.items id (s.settleAll items))

def setAttribute (s : Store) (owner : Owner) (name : String) (value : Value) : Store :=
  s.change (.member owner name (s.settle value))

/-- The attribute of a class or module that was written last. -/
def handleAttribute? (s : Store) (h : Handle) (name : String) : Option Value :=
  let written := s.changes.filterMap fun c =>
    match c.attributeOf? (.handle h) with
    | some (n, v) => if n = name then some v else none
    | none => none
  written.getLast?.map s.settle

/-- The values noted, up to date. -/
def notes (s : Store) : List Value :=
  s.events.filterMap fun e =>
    match e with
    | .noted v => some (s.settle v)
    | _ => none

end Store

end HostedLisp
