import HostedLisp.Host.Classes
import HostedLisp.Number.Shortest
import HostedLisp.Source.Printer
import HostedLisp.Text.Quoted

namespace HostedLisp

open Number Text

/-- The texts of items, set between commas. -/
def commaSeparated (texts : List String) : String :=
  ", ".intercalate texts

/-- Items in tuple form; a single item is followed by a comma. -/
def tupleText : List String → String
  | [x] => "(" ++ x ++ ",)"
  | xs => "(" ++ commaSeparated xs ++ ")"

/-- A number of at least `width` digits, padded with zeros. -/
def zeroPadded (width n : Nat) : String :=
  let ds := digits n
  String.ofList (List.replicate (width - ds.length) '0' ++ ds)

/-- A date as year, month and day. -/
def Date.text (d : Date) : String :=
  zeroPadded 4 d.year ++ "-" ++ zeroPadded 2 d.month ++ "-" ++ zeroPadded 2 d.day

def Date.inspect (d : Date) : String :=
  "datetime.date(" ++ toString d.year ++ ", " ++ toString d.month ++ ", " ++ toString d.day ++ ")"

/-- The inspected form of a truth value. -/
def inspectBool (b : Bool) : String :=
  if b then "True" else "False"

def inspectDecimal (d : Decimal) : String :=
  "Decimal('" ++ String.ofList d.scientific ++ "')"

def doubleText (x : Binary) : String :=
  String.ofList x.text

def inspectSingle (x : Binary) : String :=
  "Float32(" ++ doubleText x ++ ")"

def Token.inspect (t : Token) : String :=
  "Token(" ++ toString t.position ++ ", " ++ t.kind.name ++ ", " ++
    (match t.text with
      | some s => quoted s
      | none => "None") ++ ")"

def Literal.inspect : Literal → String
  | string s => "String(value=" ++ quoted s ++ ")"
  | integer n => "Integer(value=" ++ intText n ++ ")"
  | decimal d => "Decimal(value=" ++ inspectDecimal d ++ ")"
  | double x => "Double(value=" ++ doubleText x ++ ")"
  | float x => "Float(value=" ++ inspectSingle x ++ ")"
  | boolean b => "Boolean(value=" ++ inspectBool b ++ ")"
  | null => "Null()"

namespace Node

mutual

/-- The inspected form of a node, which shows the kinds of all its parts and no tokens. -/
def inspect : Node → String
  | error message _ => "Error(message=" ++ quoted message ++ ")"
  | quote inner _ => "Quote(inner=" ++ inspect inner ++ ")"
  | invocation head parameters _ =>
      "Invocation(identifier=" ++ inspect head ++ ", parameters=" ++
        tupleText (inspectAll parameters) ++ ")"
  | list items _ => "ListExpr(items=" ++ tupleText (inspectAll items) ++ ")"
  | identifier name _ => "ScopedIdentifier(name=" ++ quoted name ++ ")"
  | instanceMember member _ => "InstanceMemberIdentifier(member_name=" ++ quoted member ++ ")"
  | staticMember path member _ =>
      "StaticMemberIdentifier(type_path=" ++ tupleText (path.map quoted) ++ ", member_name=" ++
        quoted member ++ ")"
  | literal value _ => value.inspect

/-- The inspected forms of nodes. -/
def inspectAll : List Node → List String
  | [] => []
  | x :: xs => inspect x :: inspectAll xs

end

end Node

/-- Whether a literal holds an integer with too many digits to be written. -/
def Literal.isUnwritable : Literal → Bool
  | .integer n => exceedsDigitLimit n
  | _ => false

namespace Node

mutual

/-- Whether a node holds an integer with too many digits to be written. -/
def isUnwritable : Node → Bool
  | quote inner _ => isUnwritable inner
  | invocation head parameters _ => isUnwritable head || anyUnwritable parameters
  | list items _ => anyUnwritable items
  | literal value _ => value.isUnwritable
  | _ => false

/-- Whether one of the nodes holds an integer with too many digits to be written. -/
def anyUnwritable : List Node → Bool
  | [] => false
  | x :: xs => isUnwritable x || anyUnwritable xs

end

end Node

namespace Node

/-- A text of a node, unless an integer in the node has too many digits. -/
def written (x : Node) (text : String) : Except Failure String :=
  if x.isUnwritable then .error .tooManyDigits else .ok text

def text? (x : Node) : Except Failure String := x.written x.text

def inspect? (x : Node) : Except Failure String := x.written x.inspect

theorem text?_eq {x : Node} (h : x.isUnwritable = false) : x.text? = .ok x.text :=
  if_neg (Bool.eq_false_iff.mp h)

theorem inspect?_eq {x : Node} (h : x.isUnwritable = false) : x.inspect? = .ok x.inspect :=
  if_neg (Bool.eq_false_iff.mp h)

end Node

/-- An integer as a literal, unless it has too many digits. -/
def intText? (n : Int) : Except Failure String :=
  if exceedsDigitLimit n then .error .tooManyDigits else .ok (intText n)

theorem intText?_eq {n : Int} (h : exceedsDigitLimit n = false) : intText? n = .ok (intText n) :=
  if_neg (Bool.eq_false_iff.mp h)

namespace Value

variable [HostClasses]

mutual

/-- The inspected form of a value. -/
def inspect? : Value → Except Failure String
  | null => .ok "None"
  | bool b => .ok (inspectBool b)
  | int n => intText? n
  | double x => .ok (doubleText x)
  | float x => .ok (inspectSingle x)
  | decimal d => .ok (inspectDecimal d)
  | str s => .ok (quoted s)
  | list _ items => (inspectAll? items).map fun texts => "[" ++ commaSeparated texts ++ "]"
  | tuple items => (inspectAll? items).map tupleText
  | map entries =>
      (inspectEntries? entries).map fun texts => "\x7b" ++ commaSeparated texts ++ "\x7d"
  | code node => node.inspect?
  | date d => .ok d.inspect
  | bytes b => .ok (quotedBytes b)
  | object id className attributes =>
      HostClasses.inspectObject ⟨id, className, inspectAttributes attributes⟩
  | handle h => HostClasses.inspectHandle h
  | callable name => HostClasses.inspectCallable name
  | token t => .ok t.inspect
  | nodeKind k => .ok ("<SExprKind." ++ k.name ++ ": " ++ quoted k.name ++ ">")
termination_by structural v => v

/-- The inspected forms of values. -/
def inspectAll? : List Value → Except Failure (List String)
  | [] => .ok []
  | x :: xs => do return (← inspect? x) :: (← inspectAll? xs)
termination_by structural xs => xs

def inspectEntries? : List (Value × Value) → Except Failure (List String)
  | [] => .ok []
  | (k, v) :: rest => do
      return ((← inspect? k) ++ ": " ++ (← inspect? v)) :: (← inspectEntries? rest)
termination_by structural xs => xs

/-- Attributes with the inspected forms of their values. -/
def inspectAttributes : List (String × Value) → List (String × Value × Except Failure String)
  | [] => []
  | (name, v) :: rest => (name, v, inspect? v) :: inspectAttributes rest
termination_by structural xs => xs

end

/-- The display form of a value: a text is shown as it is, all else as inspected or by its
plain digits. -/
def display? : Value → Except Failure String
  | str s => .ok s
  | decimal d => .ok (String.ofList d.scientific)
  | date d => .ok d.text
  | nodeKind k => .ok ("SExprKind." ++ k.name)
  | object id className attributes =>
      HostClasses.displayObject ⟨id, className, inspectAttributes attributes⟩
  | v => v.inspect?

mutual

/-- The source text of a value. Values that have none are shown inspected. -/
def source? : Value → Except Failure String
  | null => .ok "null"
  | bool b => .ok (booleanText b)
  | int n => intText? n
  | double x => .ok (binaryText 'd' x)
  | float x => .ok (binaryText 'f' x)
  | decimal d => .ok (decimalText d)
  | str s => .ok (stringText s)
  | list _ items => (sourceAll? items).map fun texts => "[" ++ " ".intercalate texts ++ "]"
  | tuple items => (sourceAll? items).map fun texts => "[" ++ " ".intercalate texts ++ "]"
  | code node => node.text?
  | v => v.inspect?
termination_by structural v => v

/-- The source texts of values. -/
def sourceAll? : List Value → Except Failure (List String)
  | [] => .ok []
  | x :: xs => do return (← source? x) :: (← sourceAll? xs)
termination_by structural xs => xs

end

/-- The text of a value in string building: the source words of null and truth values, decimals
without exponent, quotes as source text, and the display form of all else. -/
def toText? : Value → Except Failure String
  | null => .ok "null"
  | bool b => .ok (booleanText b)
  | decimal d => .ok (String.ofList d.positional)
  | code (.quote inner span) => (Node.quote inner span).text?
  | v => v.display?

/-- The display form of a value, empty for one that cannot be shown. -/
def display (v : Value) : String := v.display?.toOption.getD ""

/-- The text of a value in string building, empty for one that cannot be shown. -/
def toText (v : Value) : String := v.toText?.toOption.getD ""

end Value

end HostedLisp
