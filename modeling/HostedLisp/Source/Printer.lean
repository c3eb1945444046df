import HostedLisp.Number.Shortest
import HostedLisp.Source.Node

namespace HostedLisp

open Number

/-- The spelling of a character inside a string. -/
def escapeChar (c : Char) : List Char :=
  if c = '\\' then ['\\', '\\']
  else if c = '\'' then ['\\', '\'']
  else if c = '\n' then ['\\', 'n']
  else if c = '\r' then ['\\', 'r']
  else if c = '\t' then ['\\', 't']
  else [c]

def stringText (s : String) : String :=
  String.ofList ('\'' :: s.toList.flatMap escapeChar ++ ['\''])

/-- A decimal as a literal; one without a point gets a fraction, which sets it apart from an
integer. -/
def decimalText (d : Decimal) : String :=
  let text := d.positional
  String.ofList (if text.contains '.' then text else text ++ ".0".toList)

/-- A binary number as a literal with the suffix of its kind; the values that are not finite
have no literal and are shown by name. -/
def binaryText (suffix : Char) (x : Binary) : String :=
  String.ofList (if x.isFinite then x.positionalText ++ [suffix] else x.text)

/-- A truth value as a literal. -/
def booleanText (b : Bool) : String :=
  if b then "true" else "false"

/-- An integer as a literal. -/
def intText (n : Int) : String :=
  String.ofList (integerText n)

def Literal.text : Literal → String
  | string s => stringText s
  | integer n => intText n
  | decimal d => decimalText d
  | double x => binaryText 'd' x
  | float x => binaryText 'f' x
  | boolean b => booleanText b
  | null => "null"

/-- The offset at which a span begins, zero if it is unknown. -/
def Span.offset (s : Span) : Nat :=
  (s.start.map Token.position).getD 0

namespace Node

mutual

/-- The source text of a node. An error has none and is shown with its offset. -/
def text : Node → String
  | error message span => "ERROR(" ++ toString span.offset ++ "): " ++ message
  | quote inner _ => "~" ++ text inner
  | invocation head parameters _ => "(" ++ text head ++ restText parameters ++ ")"
  | list items _ => "[" ++ itemsText items ++ "]"
  | identifier name _ => name
  | instanceMember member _ => "." ++ member
  | staticMember path member _ => dotted path ++ "/" ++ member
  | literal value _ => value.text

/-- The texts of items with a space between neighbours. -/
def itemsText : List Node → String
  | [] => ""
  | x :: xs => text x ++ restText xs

/-- The texts of items, each with a space in front. -/
def restText : List Node → String
  | [] => ""
  | x :: xs => " " ++ text x ++ restText xs

end

end Node

end HostedLisp
