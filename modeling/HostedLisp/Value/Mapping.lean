import HostedLisp.Failure
import HostedLisp.Value.Equality

namespace HostedLisp.Value

mutual

/-- The type of the first part of a value that can change. -/
def changeablePart? : Value → Option ValueType
  | list .. => some .list
  | map _ => some .map
  | tuple items => firstChangeable? items
  | _ => none
termination_by structural v => v

/-- The first part that can change in a sequence of values. -/
def firstChangeable? : List Value → Option ValueType
  | [] => none
  | x :: xs =>
      match changeablePart? x with
      | some t => some t
      | none => firstChangeable? xs
termination_by structural xs => xs

end

def checkKey (key : Value) : Except Failure Unit :=
  match key.changeablePart? with
  | some t => .error (.typeError ("unhashable type: '" ++ t.name ++ "'"))
  | none => .ok ()

/-- The map of a sequence of entries whose keys are all allowed. -/
def mapOf? (entries : List (Value × Value)) : Except Failure Value := do
  entries.forM fun e => checkKey e.1
  return mapOf entries

end HostedLisp.Value
