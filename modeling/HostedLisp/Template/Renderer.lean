import HostedLisp.Host.Catalogue
import HostedLisp.Template.Parser
import HostedLisp.Value.Equality
import HostedLisp.Value.Printer

namespace HostedLisp.Template

open Text

/-- The spelling of a character in marked-up text. -/
def escapeMarkup (c : Char) : List Char :=
  if c = '&' then "&amp;".toList
  else if c = '<' then "&lt;".toList
  else if c = '>' then "&gt;".toList
  else if c = '"' then "&quot;".toList
  else if c = '\'' then "&#x27;".toList
  else [c]

/-- A text with its special characters escaped. -/
def escaped (s : String) : String :=
  String.ofList (s.toList.flatMap escapeMarkup)

mutual

/-- A value as template data: sequences become lists, code and decimals become texts. -/
def data : Value → Value
  | .map entries => .map (dataEntries entries)
  | .list _ items => .listOf (dataAll items)
  | .tuple items => .listOf (dataAll items)
  | .code node => .str node.text
  | .decimal d => .str (String.ofList d.positional)
  | v => v
termination_by structural v => v

/-- Values as template data. -/
def dataAll : List Value → List Value
  | [] => []
  | x :: xs => data x :: dataAll xs
termination_by structural xs => xs

def dataEntries : List (Value × Value) → List (Value × Value)
  | [] => []
  | (k, v) :: rest => (k, data v) :: dataEntries rest
termination_by structural xs => xs

end

def isTrue : Value → Bool
  | .null => false
  | .bool b => b
  | .int n => n != 0
  | .double (.finite _ m _) => m != 0
  | .float (.finite _ m _) => m != 0
  | .decimal (.finite _ c _) => c != 0
  | .str s => !s.isEmpty
  | .list _ items => !items.isEmpty
  | .tuple items => !items.isEmpty
  | .map entries => !entries.isEmpty
  | .bytes b => !b.isEmpty
  | .code (.list xs _) => !xs.isEmpty
  | .code (.invocation _ ps _) => !ps.isEmpty
  | _ => true

/-- The values that a section is rendered for. -/
def sectionItems (v : Value) : List Value :=
  if !isTrue v then []
  else
    match v with
    | .list _ items => items
    | .tuple items => items
    | .code (.list xs _) => xs.map Value.code
    | .code (.invocation _ ps _) => ps.map Value.code
    | v => [v]

/-- Whether the attributes of a value can be reached from a template. -/
def hasAttributes : Value → Bool
  | .object .. => true
  | .float _ => true
  | .decimal _ => true
  | .date _ => true
  | .code _ => true
  | .token _ => true
  | .nodeKind _ => true
  | _ => false

/-- The value of a name in a single value: an entry of a map, or an attribute of an object; a
method is called. -/
def member? (c : Catalogue) (v : Value) (name : String) : Effect (Option Value) := do
  match v with
  | .map entries => return Value.entry? entries (.str name)
  | v =>
      if hasAttributes v then
        let s ← Effect.read
        let target := s.settle v
        match c.attribute? s target name with
        | some (.method ..) => return some (← Effect.adopt (← c.call target name []))
        | some .data => return some (← c.read target name)
        | none => return none
      else return none

/-- The value of a name in the innermost value of a stack that has it. -/
def search? (c : Catalogue) (name : String) : List Value → Effect (Option Value)
  | [] => .pure none
  | v :: rest => do
      match ← member? c v name with
      | some found => return some found
      | none => search? c name rest

/-- The value that the names of a path lead to. -/
def follow? (c : Catalogue) : List String → Option Value → Effect (Option Value)
  | _, none => .pure none
  | [], found => .pure found
  | name :: path, some v => do follow? c path (← member? c v name)

/-- The value of a key in a stack of values; a point stands for the innermost value, and a name
that is not found for an empty text. -/
def resolve (c : Catalogue) (stack : List Value) (key : String) : Effect Value := do
  let found ←
    if key = "." then pure stack.head?
    else
      match key.splitOn "." with
      | [] => pure none
      | first :: path => follow? c path (← search? c first stack)
  Effect.settle (found.getD (.str ""))

/-- Joins the texts of computations in order. -/
def joinAll {α : Type} (f : α → Effect String) : List α → Effect String
  | [] => .pure ""
  | x :: xs => do return (← f x) ++ (← joinAll f xs)

variable [HostClasses]

mutual

/-- The text of a part over a stack of values. -/
def renderPart (c : Catalogue) : Part → List Value → Effect String
  | .text s, _ => .pure s
  | .value key isEscaped, stack => do
      let s ← Effect.ofExcept (← resolve c stack key).display?
      return if isEscaped then escaped s else s
  | .group key inverted body, stack => do
      let v ← resolve c stack key
      if inverted then
        if isTrue v then return "" else renderParts c body stack
      else
        joinAll (fun item => renderParts c body (item :: stack)) (sectionItems v)

/-- The text of parts over a stack of values. -/
def renderParts (c : Catalogue) : List Part → List Value → Effect String
  | [], _ => .pure ""
  | p :: ps, stack => do return (← renderPart c p stack) ++ (← renderParts c ps stack)

end

/-- The text of a template over the names of a map. -/
def render (c : Catalogue) (template : String) (names : List (Value × Value)) : Effect String :=
  match parse template with
  | .ok parts => renderParts c parts [.map names]
  | .error f => .fail f.failure

end HostedLisp.Template
