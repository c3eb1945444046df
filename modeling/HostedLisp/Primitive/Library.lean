import HostedLisp.Action
import HostedLisp.Serialize
import HostedLisp.Template.Renderer

namespace HostedLisp.Primitive

variable [HostClasses]

/-- The text of the value of its parameter. -/
def textOf : Primitive := fun e =>
  match e.parameters with
  | [x] => .eval x fun v => .ofExcept v.toText? fun s => .done (.str s)
  | _ => .fail (.arity "str" "1 parameter")

/-- The texts of the values of its parameters, joined. -/
def concat : Primitive := fun e =>
  .evalAll e.parameters fun vs =>
    .ofExcept (vs.mapM Value.toText?) fun texts => .done (.str (String.join texts))

/-- The texts in a list; the first item that is no text is refused by its place. -/
def textItems (name : String) : Nat → List Value → Except Failure (List String)
  | _, [] => .ok []
  | number, v :: rest =>
      match v with
      | .str s => do return s :: (← textItems name (number + 1) rest)
      | _ => .error (.listItem name number)

/-- A list of columns, each written by `column` from a table name and a column name. -/
def columns (name : String) (column : String → String → String) : Primitive := fun e =>
  match e.parameters with
  | [x, y] =>
      .expecting x .str fun table =>
        .expecting y .list fun names =>
          match table, names with
          | .str table, .list _ vs =>
              .ofExcept (textItems name 1 vs) fun names =>
                .done (.str (", ".intercalate (names.map (column table))))
          | _, _ => .done .null
  | _ => .fail (.arity name "2 parameters")

def qualifiedColumn (table column : String) : String :=
  "[" ++ table ++ "].[" ++ column ++ "]"

/-- A column of a table under a name that holds the table's. -/
def renamedColumn (table column : String) : String :=
  qualifiedColumn table column ++ " AS [" ++ table ++ "_" ++ column ++ "]"

/-- Whether a failure of writing a value can be reported as a failure of the invocation. -/
def isDataFailure (f : Failure) : Bool :=
  f.isEvaluation || f.kind == "TypeError" || f.kind == "ValueError" || f.kind == "YAMLError"

/-- The text of the value of its second parameter in the format that the first names. -/
def serializeValue : Primitive := fun e =>
  match e.parameters with
  | [x, y] =>
      .expecting x .str fun format =>
        .eval y fun v =>
          match serialize (some format.display) false v with
          | .ok s => .done (.str s)
          | .error f => .fail (if isDataFailure f then .refused f.message else f)
  | _ => .fail (.arity "serialize" "2 parameters: format, value")

def renderOver (c : Catalogue) (template : Value) (names : List (Value × Value)) : Action :=
  .effect (do return .str (← Template.render c template.display names)) .done

def namesInScope (flat : List (String × Value)) : List (Value × Value) :=
  flat.map fun b => (.str b.1, Template.data b.2)

/-- Renders the template that its first parameter gives over the names in scope, which the
entries of a map given by the second one hide. -/
def render (c : Catalogue) : Primitive := fun e =>
  match e.parameters with
  | [x] =>
      .expecting x .str fun template => .view fun flat => renderOver c template (namesInScope flat)
  | [x, y] =>
      .expecting x .str fun template => .view fun flat =>
        .eval y fun context =>
          match context with
          | .map entries =>
              let names := (Template.dataEntries entries).foldl
                (fun names entry => Value.insertEntry entry.1 entry.2 names) (namesInScope flat)
              renderOver c template names
          | _ => .fail .contextNotMapping
  | _ => .fail (.arity "render" "1 or 2 parameters: template, context")

/-- The library primitives over the members of a catalogue. -/
def library (c : Catalogue) : Registry :=
  [("concat", concat), ("prefix", columns "prefix" qualifiedColumn),
    ("rename", columns "rename" renamedColumn), ("render", render c),
    ("serialize", serializeValue), ("str", textOf)]

end HostedLisp.Primitive
