import HostedLisp.Json.Printer
import HostedLisp.Text.Blank
import HostedLisp.Value.Plain
import HostedLisp.Yaml.Printer

namespace HostedLisp

open Text

/-- The formats of structured data. -/
inductive DataFormat where
  | json
  | yaml
deriving Repr, DecidableEq

def DataFormat.name : DataFormat → String
  | json => "json"
  | yaml => "yaml"

def DataFormat.ofName? (name : String) : Option DataFormat :=
  if name = "json" then some .json else if name = "yaml" then some .yaml else none

variable [HostClasses]

/-- The text of a value in a format. Pretty JSON has each item on a line of its own. -/
def write (format : DataFormat) (pretty : Bool) (v : Value) : Except Failure String := do
  v.checkTexts
  match format with
  | .json => Json.text (if pretty then .indented 2 else .oneLine) v.plain
  | .yaml => Yaml.text v.plain

/-- The text of a value in the format of a name, whose case does not matter. -/
def serialize (format : Option String) (pretty : Bool) (v : Value) : Except Failure String :=
  match DataFormat.ofName? (String.ofList (asciiLower (format.getD "").toList)) with
  | some f => write f pretty v
  | none =>
      .error (.valueError ("Unsupported serialization format: " ++
        (match format with
          | some s => quoted s
          | none => "None")))

end HostedLisp
