import HostedLisp.Host.Catalogue
import HostedLisp.Value.Arithmetic
import HostedLisp.Value.Mapping
import HostedLisp.Value.Printer

namespace HostedLisp.Builtin

open Number Text

/-- A parameter that can be left out. -/
def optional (name : String) : Parameter := (Parameter.plain name).withDefault

def searchSignature : Signature := [.plain "value", optional "start", optional "stop"]

/-- The data attributes that all nodes have. -/
def nodeCommon : List String := ["kind", "is_error", "start", "end"]

def nodeData : Node → List String
  | .error .. => ["message", "position"]
  | .quote .. => ["inner"]
  | .invocation .. => ["identifier", "parameters", "name"]
  | .list .. => ["items"]
  | .identifier .. => ["name"]
  | .instanceMember .. => ["member_name"]
  | .staticMember .. => ["type_path", "member_name", "dotted_type_path"]
  | .literal .. => ["value"]

def dataNames : Value → List String
  | .bool _ => ["real", "imag", "numerator", "denominator"]
  | .int _ => ["real", "imag", "numerator", "denominator"]
  | .double _ => ["real", "imag"]
  | .float _ => ["real", "imag"]
  | .decimal _ => ["real", "imag"]
  | .code node => nodeCommon ++ nodeData node
  | .date _ => ["year", "month", "day"]
  | .token _ => ["position", "text"]
  | .nodeKind _ => ["name", "value"]
  | _ => []

/-- The methods of a value with their signatures, where these are known. -/
def methods : Value → List (String × Option Signature)
  | .str _ =>
      [("upper", some []), ("lower", some []), ("startswith", none), ("index", none),
        ("count", none)]
  | .list .. =>
      [("count", some [.plain "value"]), ("index", some searchSignature),
        ("append", some [.plain "object"])]
  | .tuple _ => [("count", some [.plain "value"]), ("index", some searchSignature)]
  | .map _ => [("get", some [.plain "key", optional "default"])]
  | .bool _ => [("bit_length", some [])]
  | .int _ => [("bit_length", some [])]
  | .double _ => [("is_integer", some [])]
  | .float _ => [("is_integer", some [])]
  | .date _ => [("isoformat", some [])]
  | _ => []

def attribute? (v : Value) (name : String) : Option Attribute :=
  match (methods v).find? (fun m => m.1 == name) with
  | some (_, signature) => some (.method signature false)
  | none => if (dataNames v).contains name then some .data else none

def tokenValue : Option Token → Value
  | some t => .token t
  | none => .null

def readNode (n : Node) (name : String) : Option Value :=
  match name, n with
  | "kind", n => some (.nodeKind n.kind)
  | "is_error", n => some (.bool n.isError)
  | "start", n => some (tokenValue n.span.start)
  | "end", n => some (tokenValue n.span.stop)
  | "message", .error message _ => some (.str message)
  | "position", .error _ span => some (.int span.offset)
  | "inner", .quote inner _ => some (.code inner)
  | "identifier", .invocation head _ _ => some (.code head)
  | "parameters", .invocation _ ps _ => some (.tuple (ps.map Value.code))
  | "name", .invocation head _ _ => some (.str head.headName)
  | "items", .list xs _ => some (.tuple (xs.map Value.code))
  | "name", .identifier name _ => some (.str name)
  | "member_name", .instanceMember member _ => some (.str member)
  | "type_path", .staticMember path _ _ => some (.tuple (path.map Value.str))
  | "member_name", .staticMember _ member _ => some (.str member)
  | "dotted_type_path", .staticMember path _ _ => some (.str (Node.dotted path))
  | "value", .literal value _ => some (.ofLiteral value)
  | _, _ => none

/-- A data attribute of a plain value. The real part of a truth value is an integer, and that of
a single a double. -/
def readData (v : Value) (name : String) : Option Value :=
  match v, name with
  | .code n, name => readNode n name
  | .date d, "year" => some (.int d.year)
  | .date d, "month" => some (.int d.month)
  | .date d, "day" => some (.int d.day)
  | .token t, "position" => some (.int t.position)
  | .token t, "text" => some ((t.text.map Value.str).getD .null)
  | .nodeKind k, _ => some (.str k.name)
  | .decimal d, "real" => some (.decimal d)
  | .decimal _, "imag" => some (.decimal (.ofInt 0))
  | v, "imag" => some (if v.integer?.isSome then .int 0 else .double (.zero false))
  | _, "denominator" => some (.int 1)
  | v, _ => (v.integer?.map Value.int).or (v.binary?.map Value.double)

def read (v : Value) (name : String) : Effect Value :=
  match attribute? v name with
  | some (.method ..) => .pure (.callable name)
  | some .data => .pure ((readData v name).getD .null)
  | none => .fail (missingAttribute v name)

/-- The class that keeps the data attributes of a value. -/
def owningType : ValueType → ValueType
  | .bool => .int
  | .float => .double
  | t => t

/-- Refuses to write an attribute of a plain value: nodes and tokens cannot change, and no plain
value has room for further attributes. -/
def write (v : Value) (name : String) : Effect Unit :=
  match v with
  | .code _ => .fail (.foreign "FrozenInstanceError" ("cannot assign to field '" ++ name ++ "'"))
  | .token _ => .fail (.foreign "FrozenInstanceError" ("cannot assign to field '" ++ name ++ "'"))
  | v =>
      .fail (.attributeError ("attribute '" ++ name ++ "' of '" ++
        (owningType v.type).qualifiedName ++ "' objects is not writable"))

/-- The range of places that optional bounds cut out of a sequence; negative bounds count from
the end. -/
def cut (length : Nat) : List Value → Except Failure (Nat × Nat)
  | [] => .ok (0, length)
  | [a] => do return (← bound a 0, length)
  | a :: b :: _ => do return (← bound a 0, ← bound b length)
where
  /-- A bound as a place in the sequence. -/
  bound (v : Value) (absent : Nat) : Except Failure Nat :=
    match v, v.integer? with
    | .null, _ => .ok absent
    | _, some n => .ok (if n < 0 then (n + length).toNat else min n.toNat length)
    | _, none =>
        .error (.typeError "slice indices must be integers or None or have an __index__ method")

/-- The first place at which a part begins within a text. -/
def firstOccurrence? (part : List Char) : Nat → List Char → Option Nat
  | place, [] => if part.isEmpty then some place else none
  | place, c :: rest =>
      if part.isPrefixOf (c :: rest) then some place else firstOccurrence? part (place + 1) rest

/-- How often a part occurs in a text without overlap; `skip` characters belong to the last
occurrence. -/
def countOccurrences (part : List Char) : Nat → List Char → Nat
  | _, [] => if part.isEmpty then 1 else 0
  | skip + 1, _ :: rest => countOccurrences part skip rest
  | 0, c :: rest =>
      if part.isPrefixOf (c :: rest) then 1 + countOccurrences part (part.length - 1) rest
      else countOccurrences part 0 rest

/-- A call of a method with too few or too many arguments. -/
def wrongCount (name wanted : String) (given : Nat) : Failure :=
  .typeError (name ++ " " ++ wanted ++ " (" ++ toString given ++ " given)")

/-- The text that a search looks for. -/
def sought (v : Value) : Except Failure (List Char) :=
  match v with
  | .str s => .ok s.toList
  | v => .error (.typeError ("must be str, not " ++ v.type.qualifiedName))

/-- Whether a text begins with one of the parts given. -/
def beginsWith (s : List Char) (v : Value) : Except Failure Bool :=
  match v with
  | .str part => .ok (part.toList.isPrefixOf s)
  | .tuple parts =>
      parts.foldlM (fun found p =>
        match p with
        | .str part => .ok (found || part.toList.isPrefixOf s)
        | p =>
            if found then .ok true
            else .error (.typeError ("tuple for startswith must only contain str, not " ++
              p.type.qualifiedName))) false
  | v =>
      .error (.typeError ("startswith first arg must be str or a tuple of str, not " ++
        v.type.qualifiedName))

/-- Calls a search of a text for its first argument, between the bounds that follow it. -/
def searchText (s : List Char) (name : String) (arguments : List Value) : Except Failure Value :=
  match arguments with
  | [] => .error (wrongCount (name ++ "()") "takes at least 1 argument" 0)
  | part :: bounds => do
      if 2 < bounds.length then
        .error (wrongCount (name ++ "()") "takes at most 3 arguments" arguments.length)
      else
        let (first, last) ← cut s.length bounds
        let check ← if name = "startswith" then .ok [] else sought part
        let within := (s.take last).drop first
        let inside := first ≤ s.length && first ≤ last
        match name with
        | "startswith" => return .bool ((← beginsWith within part) && inside)
        | "index" =>
            match firstOccurrence? check first within with
            | some place =>
                if inside then return .int place else .error (.valueError "substring not found")
            | none => .error (.valueError "substring not found")
        | _ =>
            if check.isEmpty then return .int (if inside then within.length + 1 else 0)
            else return .int (countOccurrences check 0 within)

/-- Calls a method without arguments. -/
def withoutArguments (name : String) (arguments : List Value) (result : Value) :
    Except Failure Value :=
  if arguments.isEmpty then .ok result
  else .error (wrongCount (name ++ "()") "takes no arguments" arguments.length)

/-- Calls a method with one argument. -/
def withOneArgument (name : String) (arguments : List Value)
    (result : Value → Except Failure Value) : Except Failure Value :=
  match arguments with
  | [x] => result x
  | _ => .error (wrongCount (name ++ "()") "takes exactly one argument" arguments.length)

/-- Checks that a method gets at least one argument and not too many. -/
def expectCount (name : String) (most : Nat) (arguments : List Value) : Except Failure Unit :=
  let given := toString arguments.length
  if arguments.isEmpty then
    .error (.typeError (name ++ " expected at least 1 argument, got 0"))
  else if most < arguments.length then
    .error (.typeError
      (name ++ " expected at most " ++ toString most ++ " arguments, got " ++ given))
  else .ok ()

variable [HostClasses]

/-- The place of the first item equal to the first argument, between the bounds that follow. -/
def indexIn (items : List Value) (notFound : Value → Except Failure Failure)
    (arguments : List Value) : Except Failure Value := do
  expectCount "index" 3 arguments
  match arguments with
  | [] => return .null
  | x :: bounds =>
      let (first, last) ← cut items.length bounds
      match ((items.take last).drop first).findIdx? (fun item => item.same x) with
      | some place => return .int (first + place : Nat)
      | none => .error (← notFound x)

/-- How many items equal a value. -/
def countIn (items : List Value) (x : Value) : Except Failure Value :=
  .ok (.int (items.filter fun item => item.same x).length)

def notInList (x : Value) : Except Failure Failure := do
  return .valueError ((← x.inspect?) ++ " is not in list")

def notInTuple (_ : Value) : Except Failure Failure :=
  .ok (.valueError "tuple.index(x): x not in tuple")

/-- The number of binary digits of an integer. -/
def bitLength (n : Int) : Nat :=
  if n = 0 then 0 else n.natAbs.log2 + 1

/-- Reads a map at a key, with an optional answer for a key that it lacks. -/
def getEntry (entries : List (Value × Value)) (arguments : List Value) : Except Failure Value := do
  expectCount "get" 2 arguments
  match arguments with
  | key :: rest =>
      key.checkKey
      return (Value.entry? entries key).getD (rest.head?.getD .null)
  | [] => return .null

/-- The result of a method of a plain value that changes nothing. -/
def result (v : Value) (name : String) (arguments : List Value) : Except Failure Value :=
  match v, name with
  | .str s, "upper" => withoutArguments "str.upper" arguments (.str s.toUpper)
  | .str s, "lower" => withoutArguments "str.lower" arguments (.str s.toLower)
  | .str s, name => searchText s.toList name arguments
  | .list _ xs, "count" => withOneArgument "list.count" arguments (countIn xs)
  | .list _ xs, _ => indexIn xs notInList arguments
  | .tuple xs, "count" => withOneArgument "tuple.count" arguments (countIn xs)
  | .tuple xs, _ => indexIn xs notInTuple arguments
  | .map es, _ => getEntry es arguments
  | .date d, _ => withoutArguments "date.isoformat" arguments (.str d.text)
  | v, _ =>
      match v.integer?, v.binary? with
      | some n, _ => withoutArguments "int.bit_length" arguments (.int (bitLength n))
      | _, some x => withoutArguments "float.is_integer" arguments (.bool x.isWhole)
      | _, _ => .error (missingAttribute v name)

/-- Calls a method of a plain value. Appending to a list is the only one that changes it. -/
def call (v : Value) (name : String) (arguments : List Value) : Effect Value :=
  match v, name with
  | .list id xs, "append" =>
      match arguments with
      | [x] => do
          Effect.modify fun s => s.setItems id (xs ++ [x])
          return .null
      | _ =>
          .fail (wrongCount "list.append()" "takes exactly one argument" arguments.length)
  | v, name => .ofExcept (result v name arguments)

/-- The catalogue of the members of plain values, without modules. -/
def catalogue : Catalogue :=
  ⟨fun _ v name => attribute? v name, read, fun v name _ => write v name, call, fun _ => none⟩

end HostedLisp.Builtin
