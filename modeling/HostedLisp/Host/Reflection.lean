import HostedLisp.Host.Catalogue
import HostedLisp.Text.Quoted

namespace HostedLisp

/-- The settings of a host that exposes a catalogue. -/
structure Reflection where
  catalogue : Catalogue
  types : List (String × Value)
  allowImports : Bool
  strict : Bool

namespace Reflection

/-- Registers a type or object under a path, in the place of an earlier one. -/
def registerType (r : Reflection) (path : String) (v : Value) : Except Failure Reflection :=
  if path.isEmpty then .error (.valueError "type path cannot be empty")
  else .ok { r with types := setAttribute path v r.types }

/-- The module at a path; a path that is empty or begins with a point is refused. -/
def importModule (r : Reflection) (path : String) : Except Failure (Option Value) :=
  match path.toList with
  | [] => .error (.valueError "Empty module name")
  | '.' :: _ =>
      .error (.typeError ("the 'package' argument is required to perform a relative import for " ++
        Text.quoted path))
  | _ => .ok (r.catalogue.module? path)

/-- Reads an attribute on behalf of a script, which is recorded; an attribute that is not there
is nothing. -/
def reach (r : Reflection) (access : Event) (target : Value) (name : String) :
    Effect (Option Attribute) := do
  Effect.modify fun s => s.record access
  return r.catalogue.attribute? (← Effect.read) target name

/-- The type at a path: the one registered, or else the module of that name or the attribute of
a module, if modules may be imported. -/
def resolveType (r : Reflection) (segments : List String) : Effect (Option Value) := do
  match findAttribute? (Node.dotted segments) r.types with
  | some .null => return none
  | some v => return some (← Effect.settle v)
  | none =>
      if !r.allowImports then return none
      else
        match ← Effect.ofExcept (r.importModule (Node.dotted segments)) with
        | some m => return some m
        | none =>
            if segments.length < 2 then return none
            else
              match ← Effect.ofExcept (r.importModule (Node.dotted segments.dropLast)) with
              | none => return none
              | some m =>
                  let name := segments.getLast?.getD ""
                  match ← r.reach (.typeRead segments) m name with
                  | none => return none
                  | some _ => return some (← r.catalogue.read m name)

/-- Whether a name may be reached at all. -/
def isPublic (name : String) : Bool :=
  match name.toList with
  | [] => false
  | c :: _ => c ≠ '_'

variable [HostClasses]

/-- The member of a value: a method that accepts arguments of the given types, if any are given,
or a property. -/
def resolveMember (r : Reflection) (target : Value) (name : String)
    (types : Option (List ValueType)) : Effect (Option Member) := do
  if !isPublic name then return none
  else
    match ← r.reach (.attributeRead name) target name with
    | none => return none
    | some .data => return some ⟨target, name, true⟩
    | some (.method signature marked) =>
        if r.strict && !marked then return none
        else
          match types with
          | none => return some ⟨target, name, false⟩
          | some ts =>
              let accepted ← Effect.ofExcept (signatureAccepts signature ts)
              return if accepted then some ⟨target, name, false⟩ else none

/-- Reads or writes a property. -/
def callProperty (c : Catalogue) (target : Value) (name : String) (arguments : List Value) :
    Effect Value :=
  match arguments with
  | [] => do
      Effect.modify fun s => s.record (.attributeRead name)
      c.read target name
  | [v] => do
      Effect.modify fun s => s.record (.attributeWritten name)
      c.write target name v
      return v
  | _ =>
      .fail (.typeError ("property '" ++ name ++ "' accepts at most one argument, got " ++
        toString arguments.length))

def call (r : Reflection) (m : Member) (arguments : List Value) : Effect Value :=
  if m.isProperty then callProperty r.catalogue m.target m.name arguments
  else r.catalogue.call m.target m.name arguments

/-- The host with these settings. -/
def host (r : Reflection) : Host := ⟨r.resolveType, r.resolveMember, r.call⟩

def propertyText (target : Value) (name : String) : String :=
  "<PropertyAccessor " ++ target.type.name ++ "." ++ name ++ ">"

end Reflection

end HostedLisp
