import HostedLisp.Eval
import HostedLisp.Text.Blank
import HostedLisp.Text.Lines

/-!
Running scripts. A script is read as a whole, evaluated expression by expression, and answered
with the last value or with a report of the first failure: its cause, where it arose, the lines
around that place, and the calls that were running.
-/

namespace HostedLisp

open Text

/-- A token with its line and column in the script. -/
structure LocatedToken where
  token : Token
  location : Location
deriving Repr, DecidableEq

/-- The answer to a script: its last value, or a message with the token it is about. -/
inductive ScriptResult where
  | success (value : Value)
  | failure (message : String) (token : Option LocatedToken)

/-- A number in a report; one that is not known is named so. -/
def lineText : Option Int → String
  | some n => toString n
  | none => "None"

/-- The message of a failure with its line and column in front, unless it begins with a line
already. An empty message stands for an unknown failure. -/
def errorText (message : String) (location : Option (Option Int × Option Int)) : String :=
  let text := if message.isEmpty then "Unknown error" else message
  match location with
  | none => text
  | some (line, column) =>
      if "Error on line ".isPrefixOf text then text
      else
        let columnText := match column with
          | some c => ", col " ++ toString c
          | none => ""
        "Error on line " ++ lineText line ++ columnText ++ ": " ++ text

namespace LocatedToken

/-- The token with its place in a source. -/
def of (source : String) (t : Token) : LocatedToken :=
  ⟨t, locate source.toList t.position⟩

/-- The line and column in parentheses. -/
def placeText (t : LocatedToken) : String :=
  "(line " ++ toString t.location.line ++ ", col " ++ toString t.location.column ++ ")"

/-- The lines of the source around the token, each list item a part of a report; none if the
token is on no line. -/
def excerptParts (t : LocatedToken) (source : String) : List String :=
  let text := excerpt source.toList t.location.line (some t.location.column) 2
  if text.isEmpty then [] else [text]

end LocatedToken

namespace ScriptResult

/-- The report of a failure for readers; a success has none. -/
def errorReport : ScriptResult → String
  | success _ => ""
  | failure message token =>
      errorText message <| token.map fun t =>
        (some (t.location.line : Int), some (t.location.column : Int))

/-- The messages that the script leaves on the error channel. -/
def messages : ScriptResult → List String
  | success _ => []
  | failure message _ => [message]

end ScriptResult

/-- Parts of a report, one below the other. -/
def below (parts : List String) : String := "\n".intercalate parts

/-- The report of a text that cannot be read. -/
def syntaxReport (source : String) (e : SyntaxError) : ScriptResult :=
  let t := LocatedToken.of source e.start
  .failure (below (("ParseError: " ++ e.message ++ " " ++ t.placeText) :: t.excerptParts source))
    (some t)

/-- The first line of the report of a failed evaluation. -/
def causeText (f : Failure) : String :=
  match f with
  | .undefinedIdentifier name => "UndefinedIdentifier: " ++ name
  | .undefinedFunction name => "UndefinedFunction: " ++ name
  | f =>
      if f.isEvaluation then f.kind ++ ": " ++ f.message
      else "InternalError: " ++ f.kind ++ ": " ++ f.message

variable [HostClasses]

namespace Frame

def text? (f : Frame) (s : Store) : Except Failure String := do
  let arguments ← (s.settleAll f.arguments).mapM Value.source?
  let joined := String.ofList (trim (" ".intercalate arguments).toList)
  return "(" ++ f.name ++ (if joined.isEmpty then "" else " " ++ joined) ++ ")"

end Frame

namespace Machine

/-- The running calls as a line of a report, outermost first; empty without calls. -/
def stackTrace? (m : Machine) : Except Failure String := do
  if m.frames.isEmpty then return ""
  else return "MiniLISP stacktrace: " ++ " ".intercalate (← m.frames.mapM fun f => f.text? m.store)

/-- The first token of the node at hand. -/
def currentToken? (m : Machine) : Option Token :=
  match m.current with
  | some (.code x) => x.span.start
  | _ => none

/-- The report of a failed evaluation. -/
def failureReport? (m : Machine) (source : String) (f : Failure) : Except Failure ScriptResult := do
  let token := m.currentToken?.map (LocatedToken.of source)
  let place := match token with
    | some t => t.placeText :: t.excerptParts source
    | none => []
  let trace ← m.stackTrace?
  let traceParts := if trace.isEmpty then [] else [trace]
  return .failure (below (causeText f :: place ++ traceParts)) token

/-- Binds a name in the scope at a place. -/
def bindIn (scope : Nat) (name : Value) (declared : Option ValueType) (value : Value) :
    Run Binding := fun m =>
  let (value, s) := m.store.adopt value
  match m.scopes.bind scope name declared value with
  | .ok (b, scopes) => (.ok b, { m with scopes := scopes, store := s })
  | .error f => (.failed f, { m with store := s })

def bindRoot (name : Value) (declared : Option ValueType) (value : Value) : Run Binding :=
  bindIn Scopes.root name declared value

/-- Opens a child of the current scope, which becomes the current one. -/
def enterChild (m : Machine) : Nat × Machine :=
  let (child, scopes) := m.scopes.push m.scope
  (child, { m with scopes := scopes, scope := child })

def traceLines (m : Machine) : List String :=
  if m.trace.isEmpty then []
  else (splitAtNewlines (below m.trace).toList).map String.ofList

/-- Binds names in the root scope up to the first failure. -/
def bindAllRoot (values : List (Value × Value)) : Run Unit := do
  let _ ← Run.mapAll (fun (b : Value × Value) => bindRoot b.1 none b.2) values

end Machine

/-- A runner of scripts: what evaluation works with, and its state. -/
structure Runner where
  setting : Setting
  machine : Machine

namespace Runner

/-- The failure of an evaluation that nests without end. -/
def endless : Failure := .foreign "RecursionError" "maximum recursion depth exceeded"

/-- A result in which running out of fuel is a failure. -/
def settled {α : Type} : Outcome α → Except Failure α
  | .ok a => .ok a
  | .failed f => .error f
  | .unfinished => .error endless

/-- A runner that has not run anything yet, over a store with the objects of the host. -/
def start (setting : Setting) (store : Store) : Runner :=
  ⟨setting, { Machine.initial with store := store }⟩

def run {α : Type} (r : Runner) (body : Run α) : Except Failure α × Runner :=
  let (result, m) := body r.machine
  (settled result, { r with machine := m })

/-- The runner with further names bound in the root scope. -/
def bindAll (r : Runner) (values : List (Value × Value)) : Except Failure Runner :=
  let (result, r) := r.run (Machine.bindAllRoot values)
  result.map fun _ => r

/-- Evaluates expressions in order for the value of the last one. -/
def evalLast (env : Setting) : List Node → Value → Run Value
  | [], last => Run.ofEffect (Effect.settle last)
  | x :: rest, _ => do evalLast env rest (← env.eval x none)

/-- Runs a script. Only a report that cannot be written is a failure of the runner itself. -/
def handleScript (r : Runner) (source : String) : Except Failure ScriptResult × Runner :=
  let start : Machine := { r.machine with frames := [] }
  match parseMany source with
  | .error e => (.ok (syntaxReport source e), { r with machine := start })
  | .ok nodes =>
      let (result, m) := evalLast r.setting nodes .null start
      match settled result with
      | .ok v => (.ok (.success v), { r with machine := m })
      | .error f =>
          match m.failureReport? source f with
          | .error f' => (.error f', { r with machine := m })
          | .ok report =>
              let line := "handle_script failed: " ++ f.kind ++ " " ++ f.message
              (.ok report, { r with machine := (Run.traceLine line m).2 })

end Runner

end HostedLisp
