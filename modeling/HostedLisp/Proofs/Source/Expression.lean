import HostedLisp.Proofs.Number.Reading
import HostedLisp.Proofs.Source.Acceptance
import HostedLisp.Value.Printer

namespace HostedLisp

open Number

namespace Node

mutual

/-- Whether a node is an expression that can be written: no error stands in it, and its integers
do not have too many digits. -/
def IsExpression : Node → Prop
  | error .. => False
  | quote inner _ => IsExpression inner
  | invocation head parameters _ => IsExpression head ∧ AllExpressions parameters
  | list items _ => AllExpressions items
  | literal value _ => value.isUnwritable = false
  | _ => True

/-- Whether all nodes are expressions that can be written. -/
def AllExpressions : List Node → Prop
  | [] => True
  | x :: xs => IsExpression x ∧ AllExpressions xs

end

theorem allExpressions_iff {xs : List Node} : AllExpressions xs ↔ ∀ x ∈ xs, x.IsExpression := by
  induction xs with
  | nil => simp [AllExpressions]
  | cons x xs ih => simp [AllExpressions, ih]

mutual

theorem isUnwritable_of_isExpression : (x : Node) → x.IsExpression → x.isUnwritable = false
  | quote inner _, hx => isUnwritable_of_isExpression inner hx
  | invocation head parameters _, hx => by
      rw [isUnwritable, isUnwritable_of_isExpression head hx.1,
        anyUnwritable_of_allExpressions parameters hx.2, Bool.or_self]
  | list items _, hx => anyUnwritable_of_allExpressions items hx
  | literal _ _, hx => hx
  | identifier .., _ | instanceMember .., _ | staticMember .., _ => rfl
  | error .., hx => hx.elim
termination_by structural x => x

theorem anyUnwritable_of_allExpressions : (xs : List Node) → AllExpressions xs →
    anyUnwritable xs = false
  | [], _ => rfl
  | x :: xs, hxs => by
      rw [anyUnwritable, isUnwritable_of_isExpression x hxs.1,
        anyUnwritable_of_allExpressions xs hxs.2, Bool.or_self]
termination_by structural xs => xs

end

end Node

theorem Token.isExpression_of_atom? {t : Token} {x : Node} (h : t.atom? = some x) :
    x.IsExpression := by
  unfold atom? at h
  split at h
  · obtain rfl := Option.some.inj h
    trivial
  · obtain ⟨v, hv, rfl⟩ := Option.map_eq_some_iff.mp h
    cases v with
    | integer n =>
        obtain ⟨hleast, hgreatest⟩ := range_of_readInt64 (denotes_of_literal? hv).2
        rw [Node.IsExpression, Literal.isUnwritable, exceedsDigitLimit_of_range hleast hgreatest]
    | _ => rfl

theorem HeadDerivation.isExpression_tree (h : HeadDerivation) : h.tree.IsExpression := by
  cases h <;> trivial

namespace Derivation

mutual

theorem isExpression_tree : (d : Derivation) → d.Valid → d.tree.IsExpression
  | .atom t, ⟨x, hx⟩ => by
      rw [tree, hx, Option.getD_some]
      exact t.isExpression_of_atom? hx
  | .quote _ inner, hd => isExpression_tree inner hd.2
  | .list _ items _, hd => allExpressions_treeAll items hd.2.1
  | .invocation _ head parameters _, hd =>
      ⟨head.isExpression_tree, allExpressions_treeAll parameters hd.2.2.1⟩
termination_by structural d => d

theorem allExpressions_treeAll : (ds : List Derivation) → ValidAll ds →
    Node.AllExpressions (treeAll ds)
  | [], _ => trivial
  | d :: ds, hds => ⟨isExpression_tree d hds.1, allExpressions_treeAll ds hds.2⟩
termination_by structural ds => ds

end

end Derivation

theorem allExpressions_of_parseMany {source : String} {xs : List Node}
    (h : parseMany source = .ok xs) : Node.AllExpressions xs := by
  obtain ⟨ds, hds, -, rfl⟩ := parseMany_eq_ok_iff.mp h
  exact Derivation.allExpressions_treeAll ds hds

end HostedLisp
