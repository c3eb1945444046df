import HostedLisp.Host.Sample
import Mathlib.Data.List.Forall2

namespace HostedLisp

/-- Where parameters of a kind stand in a signature, counted from its beginning. -/
def ParameterKind.rank : ParameterKind → Nat
  | positionalOnly => 0
  | positional => 1
  | collecting => 2
  | keywordOnly => 3
  | collectingKeywords => 4

section Conjunction

variable {x y : Except Failure Bool}

end Conjunction

namespace Parameter

/-- Whether a parameter may stand before another one. The kinds have their order, and those with a
default come last of the positional ones. -/
structure Precedes (p q : Parameter) : Prop where
  rank_le : p.kind.rank ≤ q.kind.rank
  hasDefault : p.isPositional = true → q.isPositional = true → p.hasDefault = true →
    q.hasDefault = true

instance (p q : Parameter) : Decidable (p.Precedes q) :=
  decidable_of_iff (p.kind.rank ≤ q.kind.rank ∧
      (p.isPositional = true → q.isPositional = true → p.hasDefault = true → q.hasDefault = true))
    ⟨fun h => ⟨h.1, h.2⟩, fun h => ⟨h.rank_le, h.hasDefault⟩⟩

variable [HostClasses]

end Parameter

namespace Signature

open Parameter

/-- Whether the parameters stand in an order that a function can have. -/
def WellFormed (s : Signature) : Prop := s.Pairwise Precedes

instance (s : Signature) : Decidable s.WellFormed :=
  inferInstanceAs (Decidable (List.Pairwise Precedes s))

/-- How many positional parameters need an argument. -/
def required (s : Signature) : Nat := s.positional.countP fun p => !p.hasDefault

variable {p : Parameter} {rest : Signature} {t : ValueType} {types : List ValueType}

section Cons

end Cons

section Binding

variable {n : Nat}

end Binding

section Allowing

variable {P : Parameter → ValueType → Prop}

variable [HostClasses]

end Allowing

section Accepting

variable [HostClasses]

end Accepting

open scoped Sample

end Signature

end HostedLisp
