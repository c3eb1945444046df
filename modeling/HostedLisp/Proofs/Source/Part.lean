import HostedLisp.Source.Node

namespace HostedLisp

namespace Node

/-- Whether a node is a part of another one or that node itself. -/
inductive Within (x : Node) : Node → Prop where
  | refl : Within x x
  | quote {inner : Node} {span : Span} (h : Within x inner) : Within x (.quote inner span)
  | head {head : Node} {parameters : List Node} {span : Span} (h : Within x head) :
      Within x (.invocation head parameters span)
  | parameter {y head : Node} {parameters : List Node} {span : Span} (hy : y ∈ parameters)
      (h : Within x y) : Within x (.invocation head parameters span)
  | item {y : Node} {items : List Node} {span : Span} (hy : y ∈ items) (h : Within x y) :
      Within x (.list items span)

variable {x y z : Node}

theorem Within.trans (h : x.Within y) (h' : y.Within z) : x.Within z := by
  induction h' with
  | refl => exact h
  | quote _ ih => exact .quote ih
  | head _ ih => exact .head ih
  | parameter hy _ ih => exact .parameter hy ih
  | item hy _ ih => exact .item hy ih

/-- The nodes that a node is made of, in the order of its text. -/
def children : Node → List Node
  | quote inner _ => [inner]
  | invocation head parameters _ => head :: parameters
  | list items _ => items
  | _ => []

end Node

end HostedLisp
