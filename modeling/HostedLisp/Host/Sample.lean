import HostedLisp.Host.Builtin

namespace HostedLisp.Sample

/-- An object between angle brackets: its class, and its count if it has one. -/
def inspectObject (o : ObjectView) : Except Failure String :=
  match o.attributes.lookup "count" with
  | some (_, count) => count.map fun text => "<" ++ o.className ++ " " ++ text ++ ">"
  | none => .ok ("<" ++ o.className ++ " >")

/-- A class of all values whose hash can be taken. Lists and maps are not of it, although they are
of the type of all values, which is of it. -/
def hashable : ValueType := .object "Hashable"

def isSubclass (t wanted : ValueType) : Bool :=
  if wanted = hashable then t != .list && t != .map else t.isSubtype wanted

/-- The classes of the sample application. Its counters are displayed as they are inspected. -/
scoped instance classes : HostClasses where
  inspectObject := inspectObject
  displayObject := inspectObject
  inspectHandle
    | .classOf name => .ok ("<class '" ++ name ++ "'>")
    | .moduleOf path => .ok ("<module '" ++ path ++ "'>")
  inspectCallable name := .ok ("<function " ++ name ++ ">")
  isSubclass t wanted := .ok (isSubclass t wanted)

def newCounter (start : Value) : Value :=
  .object 0 "Counter"
    [("count", start), ("tags", .listOf []), ("note", .null), ("_secret", .str "hidden")]

def mathTools : Value := .handle (.classOf "MathTools")

def counterMethods : List (String × Signature) :=
  [("add", [.typed "n" .int]),
    ("label", [.typed "prefix" .str, (Parameter.typed "suffix" .str).withDefault]),
    ("scale", [.typed "k" .double]),
    ("sum", [(Parameter.typed "ns" .int).collectingRest]),
    ("pick", [.plain "a", (Parameter.plain "b").withDefault]),
    ("opt", [(Parameter.typed "n" .int).withDefault,
      (Parameter.typed "key" .str).withDefault.byKeyword]),
    ("need", [(Parameter.plain "key").byKeyword]),
    ("texts", [(Parameter.typed "sep" .str).withDefault.byKeyword]),
    ("lazy", [.plain "n"]),
    ("me", []),
    ("fail", [.typed "msg" .str]),
    ("refuse", [.typed "msg" .str]),
    ("reset", []),
    ("_private", [])]

/-- What a class or module offers under a name: data, a function, or a class that can be called
to make an object. -/
inductive Offer where
  | data (value : Value)
  | function (signature : Signature) (marked : Bool)
  | maker (className : String)

/-- The members of the classes and modules. -/
def offers : Handle → List (String × Offer)
  | .classOf "MathTools" =>
      [("pi", .data (.double (.ofParts false 7070651414971679 (-51)))),
        ("double", .function [.plain "x"] false),
        ("triple", .function [.plain "x"] true),
        ("join", .function [(Parameter.plain "args").collectingRest] false),
        ("counter", .function [.plain "start"] false)]
  | .classOf "Square" =>
      [("sides", .data (.int 4)), ("area", .function [.plain "n"] false), ("Inner", .maker "Inner")]
  | .classOf "Inner" => [("depth", .data (.int 2))]
  | .moduleOf "hostpkg" =>
      [("answer", .data (.int 42)), ("greet", .function [.plain "name"] false),
        ("_hidden", .data (.str "hidden")),
        ("shapes", .data (.handle (.moduleOf "hostpkg.shapes")))]
  | .moduleOf "hostpkg.shapes" => [("unit", .data (.str "cm")), ("Square", .maker "Square")]
  | _ => []

/-- The offer of a class or module under a name. -/
def offer? (h : Handle) (name : String) : Option Offer :=
  ((offers h).find? fun o => o.1 == name).map Prod.snd

/-- The modules that can be imported. -/
def module? (path : String) : Option Value :=
  if path = "hostpkg" ∨ path = "hostpkg.shapes" then some (.handle (.moduleOf path)) else none

def Offer.attribute : Offer → Attribute
  | data _ => .data
  | function signature marked => .method (some signature) marked
  | maker _ => .method (some []) false

/-- What an attribute of an object is: what its class offers, unless the object has its own. -/
def objectAttribute? (className : String) (attributes : List (String × Value)) (name : String) :
    Option Attribute :=
  if className = "Counter" ∧ name = "total" then
    some .data
  else if (findAttribute? name attributes).isSome then
    some .data
  else if className = "Counter" then
    (counterMethods.find? fun m => m.1 == name).map fun m => .method (some m.2) (name == "reset")
  else
    (offer? (.classOf className) name).map Offer.attribute

def attribute? (s : Store) (v : Value) (name : String) : Option Attribute :=
  match v with
  | .object _ className attributes => objectAttribute? className attributes name
  | .handle h =>
      if (s.handleAttribute? h name).isSome then some .data
      else (offer? h name).map Offer.attribute
  | v => Builtin.attribute? v name

def Offer.value (name : String) : Offer → Value
  | data v => v
  | function .. => .callable name
  | maker className => .handle (.classOf className)

/-- Reads an attribute. The total of a counter is twice its count. -/
def read (v : Value) (name : String) : Effect Value :=
  match v with
  | .object _ "Counter" attributes =>
      if name = "total" then
        .ofExcept (((findAttribute? "count" attributes).getD .null).times (.int 2))
      else
        match findAttribute? name attributes with
        | some a => .pure a
        | none =>
            if counterMethods.any (·.1 == name) then .pure (.callable name)
            else .fail (missingAttribute v name)
  | .object _ className attributes =>
      match findAttribute? name attributes, offer? (.classOf className) name with
      | some a, _ => .pure a
      | none, some o => .pure (o.value name)
      | none, none => .fail (missingAttribute v name)
  | .handle h => do
      match (← Effect.read).handleAttribute? h name, offer? h name with
      | some a, _ => return a
      | none, some o => return o.value name
      | none, none => Effect.fail (missingAttribute v name)
  | v => Builtin.read v name

/-- Writes an attribute of an object, a class or a module. -/
def write (v : Value) (name : String) (value : Value) : Effect Unit :=
  match v with
  | .object id className _ =>
      if className = "Counter" ∧ name = "total" then
        .fail (.attributeError "property 'total' of 'Counter' object has no setter")
      else
        Effect.modify fun s => s.setAttribute (.object id) name value
  | .handle h => Effect.modify fun s => s.setAttribute (.handle h) name value
  | v => Builtin.write v name

def setCount (id : Identity) (count : Value) : Effect Value := do
  Effect.modify fun s => s.setAttribute (.object id) "count" count
  return count

/-- Joins two texts as an expression of the application does. -/
def joinTexts (a b : Value) : Except Failure Value := a.plus "+" b

variable [HostClasses]

/-- The result of a method of a counter that was given a possible number of arguments. -/
def counterResult (self : Value) (id : Identity) (count : Value) (name : String)
    (arguments : List Value) : Effect Value :=
  match name, arguments with
  | "add", [n] => do setCount id (← .ofExcept (count.plus "+=" n))
  | "label", p :: rest =>
      .ofExcept do joinTexts (← joinTexts p (.str (← count.display?))) (rest.head?.getD (.str ""))
  | "scale", [k] => .pure (.listOf [.str "scaled", k])
  | "sum", ns => do
      let total ← .ofExcept (ns.foldlM (fun acc n => acc.plus "+" n) (.int 0))
      setCount id (← .ofExcept (count.plus "+=" total))
  | "pick", a :: rest => .pure (.listOf [a, rest.head?.getD .null])
  | "opt", ns => .pure (.listOf [ns.head?.getD (.int 7), .str "k"])
  | "texts", _ => .pure (.str ",")
  | "lazy", [n] => .pure n
  | "me", _ => .pure self
  | "fail", [msg] => do .fail (.valueError (← .ofExcept msg.display?))
  | "refuse", [msg] => do .fail (.refused (← .ofExcept msg.display?))
  | "reset", _ => do
      let _ ← setCount id (.int 0)
      return .null
  | _, _ => .pure .null

/-- The result of a function of a class or module that was given a possible number of
arguments. -/
def functionResult (name : String) (arguments : List Value) : Except Failure Value :=
  match name, arguments with
  | "double", [x] => x.times (.int 2)
  | "triple", [x] => x.times (.int 3)
  | "join", xs => .ok (.listOf xs)
  | "counter", [start] => .ok (newCounter start)
  | "greet", [who] => joinTexts (.str "hello ") who
  | "area", [n] => n.times n
  | _, _ => .ok .null

/-- The name of a function in failures of its call. -/
def qualified (h : Handle) (name : String) : String :=
  match h with
  | .classOf c => c ++ "." ++ name
  | .moduleOf _ => name

/-- Calls what a class or module offers. -/
def callOffer (h : Handle) (name : String) (arguments : List Value) : Effect Value :=
  match offer? h name with
  | some (.function signature _) =>
      match signature.callFault? (qualified h name) 0 arguments.length with
      | some f => .fail f
      | none => .ofExcept (functionResult name arguments)
  | some (.maker className) =>
      if arguments.isEmpty then .pure (.object 0 className [])
      else .fail (.typeError (className ++ "() takes no arguments"))
  | _ => .fail (missingAttribute (.handle h) name)

def call (v : Value) (name : String) (arguments : List Value) : Effect Value :=
  match v with
  | .object id "Counter" attributes =>
      match counterMethods.find? (fun m => m.1 == name) with
      | some (_, signature) =>
          match signature.callFault? ("Counter." ++ name) 1 arguments.length with
          | some f => .fail f
          | none =>
              counterResult v id ((findAttribute? "count" attributes).getD .null) name arguments
      | none => .fail (missingAttribute v name)
  | .object _ className _ => callOffer (.classOf className) name arguments
  | .handle h => callOffer h name arguments
  | v => Builtin.call v name arguments

/-- The catalogue of the sample application. -/
def catalogue : Catalogue := ⟨attribute?, read, write, call, module?⟩

end HostedLisp.Sample
