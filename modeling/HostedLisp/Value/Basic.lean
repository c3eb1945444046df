import HostedLisp.Source.Node

namespace HostedLisp

open Number

/-- A calendar date. -/
structure Date where
  year : Nat
  month : Nat
  day : Nat
deriving Repr, DecidableEq, Inhabited

/-- What an application offers under a name: a class of objects or a module of members. -/
inductive Handle where
  | classOf (name : String)
  | moduleOf (path : String)
deriving Repr, DecidableEq, Inhabited

/-- The identity of a list or an object; zero until a store has given it one. -/
abbrev Identity := Nat

/-- Runtime values. -/
inductive Value where
  | null
  | bool (value : Bool)
  | int (value : Int)
  | double (value : Binary)
  | float (value : Binary)
  | decimal (value : Decimal)
  | str (value : String)
  | list (id : Identity) (items : List Value)
  | tuple (items : List Value)
  | map (entries : List (Value × Value))
  | code (node : Node)
  | date (value : Date)
  | bytes (value : List UInt8)
  | object (id : Identity) (className : String) (attributes : List (String × Value))
  | handle (value : Handle)
  | callable (name : String)
  | token (value : Token)
  | nodeKind (value : NodeKind)
deriving Inhabited

/-- The types of runtime values, and the type of all of them. -/
inductive ValueType where
  | any
  | null
  | bool
  | int
  | double
  | float
  | decimal
  | str
  | list
  | tuple
  | map
  | node (kind : NodeKind)
  | date
  | bytes
  | object (className : String)
  | classHandle
  | moduleHandle
  | callable
  | token
  | nodeKind
deriving Repr, DecidableEq, Inhabited

namespace ValueType

def nodeTypeName : NodeKind → String
  | .list => "ListExpr"
  | kind => kind.name

def name : ValueType → String
  | any => "object"
  | null => "NoneType"
  | bool => "bool"
  | int => "int"
  | double => "float"
  | float => "Float32"
  | decimal => "Decimal"
  | str => "str"
  | list => "list"
  | tuple => "tuple"
  | map => "dict"
  | node kind => nodeTypeName kind
  | date => "date"
  | bytes => "bytes"
  | object className => className
  | classHandle => "type"
  | moduleHandle => "module"
  | callable => "function"
  | token => "Token"
  | nodeKind => "SExprKind"

/-- Whether each value of the first type is one of the second: a truth value is an integer, a
single is a double, and everything is of the type of all values. -/
def isSubtype (a b : ValueType) : Bool :=
  b == any || a == b || (a == bool && b == int) || (a == float && b == double)

end ValueType

namespace Value

def type : Value → ValueType
  | null => .null
  | bool _ => .bool
  | int _ => .int
  | double _ => .double
  | float _ => .float
  | decimal _ => .decimal
  | str _ => .str
  | list .. => .list
  | tuple _ => .tuple
  | map _ => .map
  | code node => .node node.kind
  | date _ => .date
  | bytes _ => .bytes
  | object _ className _ => .object className
  | handle (.classOf _) => .classHandle
  | handle (.moduleOf _) => .moduleHandle
  | callable _ => .callable
  | token _ => .token
  | nodeKind _ => .nodeKind

/-- Whether a value is of a type or of a subtype of it. -/
def isOf (v : Value) (t : ValueType) : Bool :=
  v.type.isSubtype t

def isNull : Value → Bool
  | null => true
  | _ => false

/-- A list without an identity. -/
def listOf (items : List Value) : Value := list 0 items

def ofLiteral : Literal → Value
  | .string s => str s
  | .integer n => int n
  | .decimal d => decimal d
  | .double x => double x
  | .float x => float x
  | .boolean b => bool b
  | .null => null

end Value

end HostedLisp
