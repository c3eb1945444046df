import HostedLisp.Json.Parser
import HostedLisp.Serialize
import HostedLisp.Text.Charset
import HostedLisp.Yaml.Reader

namespace HostedLisp

open Text

/-- The format that a media type or the suffix of a file names. -/
def DataFormat.ofMediaType? (mediaType : List Char) : Option DataFormat :=
  let name := asciiLower mediaType
  if contains "json".toList name then some .json
  else if contains "yaml".toList name || name = "yml".toList then some .yaml
  else none

/-- The format that a text looks like: brackets begin JSON, and all else may be YAML. -/
def DataFormat.ofText? (text : List Char) : Option DataFormat :=
  match trimLeft text with
  | [] => none
  | c :: _ => if c = '{' ∨ c = '[' then some .json else some .yaml

/-- The format of a text that came with a media type; a hint may be missing. -/
def detectFormat (mediaType : List Char) (hint : Option (List Char)) : Option DataFormat :=
  (DataFormat.ofMediaType? mediaType).or (hint.bind DataFormat.ofText?)

/-- Reads a text in a format. What was taken for JSON may be YAML. -/
def DataFormat.read (format : DataFormat) (text : List Char) : Except Failure Value :=
  match format with
  | .yaml => Yaml.read text
  | .json =>
      match Json.parse text with
      | .ok v => .ok v
      | .error (.tooManyDigits count) => .error (.tooManyDigitsToRead count)
      | .error .malformed => Yaml.read text

variable [HostClasses]

/-- The text of data: bytes are decoded, and other values are shown as text. -/
def dataText (mediaType : List Char) (data : Value) : Except Failure (List Char) :=
  match data with
  | .bytes bytes => .ok (decodeAs mediaType bytes)
  | v => (v.display?).map String.toList

/-- Reads data. A format of another name than the known ones leaves the text as it is. -/
def deserialize (data : Value) (mediaType : List Char) (format : String) :
    Except Failure Value := do
  let text ← dataText mediaType data
  let chosen :=
    if format.isEmpty then detectFormat mediaType (some text) else DataFormat.ofName? format
  match chosen with
  | some f => f.read text
  | none => return .str (String.ofList text)

end HostedLisp
