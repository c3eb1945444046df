import HostedLisp.Deserialize
import HostedLisp.Files

namespace HostedLisp.Globals

open Text

/-- The refusal of a file, by its path. -/
def refused (p : Path) (reason : String) : Failure :=
  .valueError ("globals file " ++ quoted p.text ++ " " ++ reason)

variable [HostClasses]

/-- Refuses bindings of something else than names. -/
def checkNames (p : Path) (entries : List (Value × Value)) : Except Failure Unit :=
  match entries.find? (fun e => !e.1.isOf .str) with
  | some (key, _) => do .error (refused p ("has a non-string key " ++ (← key.inspect?)))
  | none => .ok ()

/-- The bindings in the text of a file; a blank text has none. -/
def parse (p : Path) (text : List Char) : Except Failure (List (Value × Value)) := do
  if (trim text).isEmpty then return []
  else
    match ← deserialize (.str (String.ofList text)) p.suffix.toList "" with
    | .null => return []
    | .map entries =>
        checkNames p entries
        return entries
    | v => .error (refused p ("must contain a mapping, got " ++ v.type.name))

/-- The bindings of a file. -/
def load (files : Files) (name : String) : Except Failure (List (Value × Value)) := do
  let p := Path.ofText name
  parse p (← files.read p)

end HostedLisp.Globals
