import HostedLisp.Host.Basic
import HostedLisp.Value.Printer

namespace HostedLisp.Table

/-- The one type known. -/
def knownType : Value := .str "TYPE"

/-- Records the request of a type; only the path `T` names one. -/
def resolveType (segments : List String) : Effect (Option Value) := do
  Effect.modify fun s => s.record (.typeRequested segments)
  return if segments = ["T"] then some knownType else none

variable [HostClasses]

/-- Records the request of a member with the text of its target. -/
def resolveMember (target : Value) (name : String) (types : Option (List ValueType)) :
    Effect (Option Member) := do
  let text ← Effect.ofExcept target.source?
  Effect.modify fun s => s.record (.memberRequested text name types)
  return if name = "echo" ∨ name = "boom" then some ⟨target, name, false⟩ else none

/-- Answers the arguments of `echo` as a list; `boom` fails with their number. -/
def call (m : Member) (arguments : List Value) : Effect Value :=
  if m.name = "echo" then .pure (.listOf arguments)
  else .fail (.valueError ("boom " ++ toString arguments.length))

def host : Host := ⟨resolveType, resolveMember, call⟩

end HostedLisp.Table
