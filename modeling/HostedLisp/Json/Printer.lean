import HostedLisp.Value.Printer

namespace HostedLisp.Json

open Text

/-- The spelling of a character inside a JSON string. -/
def escapeChar (c : Char) : List Char :=
  if c = '"' then ['\\', '"']
  else if c = '\\' then ['\\', '\\']
  else if c = '\n' then ['\\', 'n']
  else if c = '\r' then ['\\', 'r']
  else if c = '\t' then ['\\', 't']
  else if c = '\x0c' then ['\\', 'f']
  else if c = '\x08' then ['\\', 'b']
  else if c.toNat < 32 then '\\' :: 'u' :: hex 4 c.toNat
  else [c]

def stringText (s : String) : String :=
  String.ofList ('"' :: s.toList.flatMap escapeChar ++ ['"'])

/-- A double as a JSON number; those that are not finite have names. -/
def numberText : Number.Binary → String
  | .infinite negative => if negative then "-Infinity" else "Infinity"
  | .nan => "NaN"
  | x => doubleText x

/-- How the text is laid out: on one line, or with each item on a line of its own that is
indented by a number of spaces for each level. -/
inductive Layout where
  | oneLine
  | indented (step : Nat)
deriving Repr, DecidableEq

/-- The text between an opening bracket and the first item, or the last item and the closing
bracket, at a level. -/
def Layout.edge : Layout → Nat → String
  | oneLine, _ => ""
  | indented step, level => "\n" ++ String.ofList (List.replicate (step * level) ' ')

/-- The text between two items at a level. -/
def Layout.separator : Layout → Nat → String
  | oneLine, _ => ", "
  | layout, level => "," ++ layout.edge level

/-- Items between brackets at a level. -/
def enclosed (layout : Layout) (level : Nat) (opening closing : String) (items : List String) :
    String :=
  if items.isEmpty then opening ++ closing
  else opening ++ layout.edge (level + 1) ++ (layout.separator (level + 1)).intercalate items ++
    layout.edge level ++ closing

/-- The refusal of a value that JSON does not know. -/
def unwritable (v : Value) : Failure :=
  .typeError ("Object of type " ++ v.type.name ++ " is not JSON serializable")

variable [HostClasses]

mutual

/-- The JSON text of plain data at a level. -/
def print (layout : Layout) (level : Nat) : Value → Except Failure String
  | .null => .ok "null"
  | .bool b => .ok (booleanText b)
  | .int n => intText? n
  | .double x => .ok (numberText x)
  | .float x => .ok (numberText x)
  | .str s => .ok (stringText s)
  | .list _ items => (printAll layout (level + 1) items).map (enclosed layout level "[" "]")
  | .tuple items => (printAll layout (level + 1) items).map (enclosed layout level "[" "]")
  | .map entries =>
      (printEntries layout (level + 1) entries).map (enclosed layout level "\x7b" "\x7d")
  | v => .error (unwritable v)
termination_by structural v => v

/-- The JSON texts of items at a level. -/
def printAll (layout : Layout) (level : Nat) : List Value → Except Failure (List String)
  | [] => .ok []
  | x :: xs => do return (← print layout level x) :: (← printAll layout level xs)
termination_by structural xs => xs

/-- The JSON texts of entries at a level. -/
def printEntries (layout : Layout) (level : Nat) :
    List (Value × Value) → Except Failure (List String)
  | [] => .ok []
  | (k, v) :: rest => do
      let text ← print layout level v
      return (stringText k.display ++ ": " ++ text) :: (← printEntries layout level rest)
termination_by structural xs => xs

end

/-- The JSON text of plain data. -/
def text (layout : Layout) (v : Value) : Except Failure String :=
  print layout 0 v

end HostedLisp.Json
