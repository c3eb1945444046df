import HostedLisp.Proofs.Evaluation.Diagnostics
import HostedLisp.Proofs.Evaluation.Equivalence

namespace HostedLisp.Primitive

section Admissible

variable {inBlock : Bool}

theorem admissible_withParameter (e : Invocation) (i : Nat) {next : Node → Action}
    (h : ∀ x, (next x).Admissible inBlock) : (e.withParameter i next).Admissible inBlock := by
  unfold Invocation.withParameter
  split
  · exact h _
  · trivial

theorem admissible_evaluation (e : Invocation) (i : Nat) {next : Value → Action}
    (h : ∀ v, (next v).Admissible inBlock) :
    (e.withParameter i fun x => .eval x next).Admissible inBlock :=
  admissible_withParameter e i fun _ => h

theorem admissible_withX (e : Invocation) : (withX e).Admissible inBlock :=
  admissible_evaluation e 0 fun _ => ⟨admissible_evaluation e 1 fun _ => trivial, fun _ => trivial⟩

theorem admissible_letName (e : Invocation) : (letName e).Admissible inBlock := by
  unfold letName
  split
  · exact fun _ => ⟨fun _ => trivial, fun _ => trivial⟩
  · trivial

theorem admissible_attempt (e : Invocation) : (attempt e).Admissible inBlock :=
  ⟨admissible_evaluation e 0 fun _ => trivial,
    fun _ => admissible_evaluation e 1 fun _ => trivial, fun _ => trivial⟩

variable [HostClasses]

theorem admissible_failWith (failure : String → Failure) (e : Invocation) :
    (failWith failure e).Admissible inBlock :=
  admissible_evaluation e 0 fun _ => admissible_ofExcept _ fun _ => trivial

theorem admissible_sample {entry : String × Primitive} (h : entry ∈ sample)
    (hstack : entry.1 ≠ "stack") (e : Invocation) : (entry.2 e).Admissible inBlock := by
  simp only [sample, List.mem_cons, List.not_mem_nil, or_false] at h
  rcases h with rfl | rfl | rfl | rfl | rfl | rfl | rfl | rfl | rfl | rfl | rfl | rfl | rfl | rfl |
    rfl
  · exact admissible_evaluation e 0 fun _ => trivial
  · exact admissible_withX e
  · exact admissible_letName e
  · exact admissible_attempt e
  · exact admissible_ofExcept _ fun _ => trivial
  · exact admissible_evalAll _ fun _ => trivial
  · exact admissible_withParameter e 0 fun x => admissible_expecting x _ fun _ => trivial
  · exact admissible_failWith _ e
  · exact admissible_failWith _ e
  · exact admissible_withParameter e 0 fun _ _ => trivial
  · exact admissible_evalAll _ fun _ => admissible_ofExcept _ fun _ => trivial
  · exact fun _ => trivial
  · exact absurd rfl hstack
  · trivial
  · trivial

end Admissible

theorem heedless_standard : ∀ entry ∈ standard, Heedless entry.2 := fun _ h e =>
  @Action.Admissible.heedless false _ (admissible_standard h e)

variable [HostClasses]

theorem heedless_sample : ∀ entry ∈ sample, entry.1 ≠ "stack" → Heedless entry.2 :=
  fun _ h hstack e => @Action.Admissible.heedless false _ (admissible_sample h hstack e)

end HostedLisp.Primitive
