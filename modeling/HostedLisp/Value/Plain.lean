import HostedLisp.Value.Equality
import HostedLisp.Value.Printer

namespace HostedLisp.Value

variable [HostClasses]

mutual

/-- Fails if a text that plain data are made of cannot be had: that of a key, or of code. -/
def checkTexts : Value → Except Failure Unit
  | list _ items => checkTextsAll items
  | tuple items => checkTextsAll items
  | map entries => checkTextsEntries entries
  | code node => node.text?.map fun _ => ()
  | _ => .ok ()
termination_by structural v => v

/-- The same of values in order. -/
def checkTextsAll : List Value → Except Failure Unit
  | [] => .ok ()
  | x :: xs => do
      checkTexts x
      checkTextsAll xs
termination_by structural xs => xs

/-- The same of entries in order, each key before its value. -/
def checkTextsEntries : List (Value × Value) → Except Failure Unit
  | [] => .ok ()
  | (k, v) :: rest => do
      discard k.display?
      checkTexts v
      checkTextsEntries rest
termination_by structural xs => xs

end

mutual

/-- A value as plain data. Values of other kinds stay, and formats refuse them. -/
def plain : Value → Value
  | list _ items => listOf (plainAll items)
  | tuple items => listOf (plainAll items)
  | map entries => mapOf (plainEntries entries)
  | decimal d => str (String.ofList d.positional)
  | float x => double x
  | code node => str node.text
  | v => v
termination_by structural v => v

/-- Values as plain data. -/
def plainAll : List Value → List Value
  | [] => []
  | x :: xs => plain x :: plainAll xs
termination_by structural xs => xs

/-- Entries as plain data, their keys as texts. -/
def plainEntries : List (Value × Value) → List (Value × Value)
  | [] => []
  | (k, v) :: rest => (str k.display, plain v) :: plainEntries rest
termination_by structural xs => xs

end

end HostedLisp.Value
