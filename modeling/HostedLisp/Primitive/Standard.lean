import HostedLisp.Action
import HostedLisp.Value.Equality

namespace HostedLisp.Primitive

/-- Evaluates its parameter to a quote and then the quoted expression. -/
def force : Primitive := fun e =>
  match e.parameters with
  | [x] =>
      .eval x fun v =>
        match v with
        | .code (.quote inner _) => .eval inner .done
        | _ => .fail .notQuoted
  | _ => .fail (.arity "eval" "1 parameter")

/-- Whether a value counts as true; numbers count as neither. -/
def truth? : Value → Option Bool
  | .null => some false
  | .bool b => some b
  | .int _ => none
  | .double _ => none
  | .float _ => none
  | .decimal _ => none
  | _ => some true

/-- Evaluates a condition and then one of two expressions. -/
def choose : Primitive := fun e =>
  match e.parameters with
  | [test, whenTrue, whenFalse] =>
      .eval test fun v =>
        .trace ("if() test " ++ v.type.name) <|
          match truth? v with
          | some true => .eval whenTrue .done
          | some false => .eval whenFalse .done
          | none => .fail (.conditionKind v.type)
  | _ => .fail (.arity "if" "3 parameters: condition, then, else")

/-- Evaluates two parameters and answers whether they are equal, or whether they differ. -/
def compare (name : String) (wanted : Bool) : Primitive := fun e =>
  match e.parameters with
  | [_, _] =>
      .evalAll e.parameters fun vs =>
        match vs with
        | [a, b] => .done (.bool (valuesEqual a b == wanted))
        | _ => .fail (.arity name "2 parameters")
  | _ => .fail (.arity name "2 parameters")

/-- The primitives of every evaluator. -/
def standard : Registry :=
  [("eq", compare "eq" true), ("eval", force), ("if", choose), ("ne", compare "ne" false)]

end HostedLisp.Primitive
