import HostedLisp.Number.Exact
import HostedLisp.Source.Token

namespace HostedLisp

open Number

/-- The first and last token of a node; a node that was not read from a text has none. -/
structure Span where
  start : Option Token
  stop : Option Token
deriving Repr, DecidableEq, Inhabited

def Span.ofToken (t : Token) : Span := ⟨some t, some t⟩

/-- The span of a node that was not read from a text. -/
def Span.absent : Span := ⟨none, none⟩

/-- Literal values. -/
inductive Literal where
  | string (value : String)
  | integer (value : Int)
  | decimal (value : Decimal)
  | double (value : Binary)
  | float (value : Binary)
  | boolean (value : Bool)
  | null
deriving Repr, DecidableEq, Inhabited

/-- Expressions. The head and the parameters of an invocation are kept unevaluated. -/
inductive Node where
  | error (message : String) (span : Span)
  | quote (inner : Node) (span : Span)
  | invocation (head : Node) (parameters : List Node) (span : Span)
  | list (items : List Node) (span : Span)
  | identifier (name : String) (span : Span)
  | instanceMember (member : String) (span : Span)
  | staticMember (path : List String) (member : String) (span : Span)
  | literal (value : Literal) (span : Span)
deriving Repr, Inhabited

/-- The kinds of nodes. -/
inductive NodeKind where
  | error
  | quote
  | invocation
  | list
  | identifier
  | instanceMember
  | staticMember
  | string
  | integer
  | decimal
  | double
  | float
  | boolean
  | null
deriving Repr, DecidableEq, Inhabited

def NodeKind.name : NodeKind → String
  | error => "Error"
  | quote => "Quote"
  | invocation => "Invocation"
  | list => "List"
  | identifier => "ScopedIdentifier"
  | instanceMember => "InstanceMemberIdentifier"
  | staticMember => "StaticMemberIdentifier"
  | string => "String"
  | integer => "Integer"
  | decimal => "Decimal"
  | double => "Double"
  | float => "Float"
  | boolean => "Boolean"
  | null => "Null"

def Literal.kind : Literal → NodeKind
  | string _ => .string
  | integer _ => .integer
  | decimal _ => .decimal
  | double _ => .double
  | float _ => .float
  | boolean _ => .boolean
  | null => .null

/-- Whether two literals have one kind and one value. -/
def Literal.same : Literal → Literal → Bool
  | string a, string b => a == b
  | integer a, integer b => a == b
  | decimal a, decimal b => Exact.same (Exact.ofDecimal? a) (Exact.ofDecimal? b)
  | double a, double b => Exact.same (Exact.ofBinary? a) (Exact.ofBinary? b)
  | float a, float b => Exact.same (Exact.ofBinary? a) (Exact.ofBinary? b)
  | boolean a, boolean b => a == b
  | null, null => true
  | _, _ => false

namespace Node

/-- The tokens that the node was read from. -/
def span : Node → Span
  | error _ s => s
  | quote _ s => s
  | invocation _ _ s => s
  | list _ s => s
  | identifier _ s => s
  | instanceMember _ s => s
  | staticMember _ _ s => s
  | literal _ s => s

def kind : Node → NodeKind
  | error .. => .error
  | quote .. => .quote
  | invocation .. => .invocation
  | list .. => .list
  | identifier .. => .identifier
  | instanceMember .. => .instanceMember
  | staticMember .. => .staticMember
  | literal value _ => value.kind

/-- Whether the node stands for a failed parse. -/
def isError : Node → Bool
  | error .. => true
  | _ => false

/-- The path of a static member in dotted form. -/
def dotted (path : List String) : String :=
  ".".intercalate path

def headName : Node → String
  | identifier name _ => name
  | instanceMember member _ => "." ++ member
  | staticMember path member _ => dotted path ++ "/" ++ member
  | _ => "<invocation>"

mutual

/-- Whether two nodes have the same kind and contents, whatever their tokens. -/
def same : Node → Node → Bool
  | error m _, error n _ => m == n
  | quote a _, quote b _ => same a b
  | invocation h ps _, invocation k qs _ => same h k && sameAll ps qs
  | list xs _, list ys _ => sameAll xs ys
  | identifier a _, identifier b _ => a == b
  | instanceMember a _, instanceMember b _ => a == b
  | staticMember p a _, staticMember q b _ => p == q && a == b
  | literal a _, literal b _ => a.same b
  | _, _ => false

/-- Whether two lists of nodes are the same, item by item. -/
def sameAll : List Node → List Node → Bool
  | [], [] => true
  | x :: xs, y :: ys => same x y && sameAll xs ys
  | _, _ => false

end

end Node

end HostedLisp
