import HostedLisp.Primitive.Library
import HostedLisp.Primitive.Sample
import HostedLisp.Primitive.Standard
import HostedLisp.Proofs.Evaluation.Positions

namespace HostedLisp

namespace Action

theorem bare_eval {x x' : Node} {next next' : Value → Action} (hx : x.bare = x'.bare)
    (h : ∀ v, (next v).bare = (next' v).bare) : (eval x next).bare = (eval x' next').bare := by
  rw [bare, bare, hx, funext h]

theorem bare_expecting {x x' : Node} {next next' : Value → Action} (hx : x.bare = x'.bare)
    (wanted : ValueType) (h : ∀ v, (next v).bare = (next' v).bare) :
    (expecting x wanted next).bare = (expecting x' wanted next').bare := by
  refine bare_eval hx fun v => ?_
  split
  · exact h v
  · rfl

theorem bare_within {body body' : Action} (h : body.bare = body'.bare)
    (bindings : List (String × Value)) (next : Value → Action) :
    (within bindings body next).bare = (within bindings body' next).bare := by
  rw [bare, bare, h]

theorem bare_recover {body body' : Action} {handler handler' : Failure → Action}
    (h : body.bare = body'.bare) (hh : ∀ f, (handler f).bare = (handler' f).bare)
    (next : Value → Action) :
    (recover body handler next).bare = (recover body' handler' next).bare := by
  rw [bare, bare, h, funext hh]

theorem bare_evalAll (xs : List Node) (next : List Value → Action) :
    (evalAll (Node.bareAll xs) next).bare = (evalAll xs next).bare := by
  have hgo : ∀ vs, (evalAll.go next (Node.bareAll xs) vs).bare = (evalAll.go next xs vs).bare := by
    induction xs with
    | nil => exact fun _ => rfl
    | cons x xs ih => exact fun vs => bare_eval x.bare_bare fun v => ih (v :: vs)
  exact hgo []

theorem bare_withParameter (e : Invocation) (i : Nat) {next next' : Node → Action}
    (h : ∀ x, (next x.bare).bare = (next' x).bare) :
    (e.bare.withParameter i next).bare = (e.withParameter i next').bare := by
  unfold Invocation.withParameter
  rw [Invocation.bare, Node.bareAll_eq_map, List.getElem?_map]
  cases e.parameters[i]? with
  | none => rfl
  | some x => exact h x

end Action

namespace Primitive

open Action

theorem blind_force : Blind force := by
  rintro ⟨head, _ | ⟨x, _ | ⟨y, rest⟩⟩, span⟩
  · rfl
  · exact bare_eval x.bare_bare fun _ => rfl
  · rfl

theorem blind_choose : Blind choose := by
  rintro ⟨head, _ | ⟨x, _ | ⟨y, _ | ⟨z, _ | ⟨w, rest⟩⟩⟩⟩, span⟩
  · rfl
  · rfl
  · rfl
  · refine bare_eval x.bare_bare fun v => congrArg (trace _) ?_
    split
    · exact bare_eval y.bare_bare fun _ => rfl
    · exact bare_eval z.bare_bare fun _ => rfl
    · rfl
  · rfl

theorem blind_compare (name : String) (wanted : Bool) : Blind (compare name wanted) := by
  rintro ⟨head, _ | ⟨x, _ | ⟨y, _ | ⟨z, rest⟩⟩⟩, span⟩
  · rfl
  · rfl
  · exact bare_evalAll [x, y] _
  · rfl

theorem blind_standard : ∀ entry ∈ standard, Blind entry.2 := by
  intro entry h
  simp only [standard, List.mem_cons, List.not_mem_nil, or_false] at h
  rcases h with rfl | rfl | rfl | rfl
  · exact blind_compare _ _
  · exact blind_force
  · exact blind_choose
  · exact blind_compare _ _

theorem blind_evaluation (next : Value → Action) :
    Blind fun e => e.withParameter 0 fun x => .eval x next :=
  fun e => bare_withParameter e 0 fun x => bare_eval x.bare_bare fun _ => rfl

theorem blind_withX : Blind withX := by
  intro e
  refine bare_withParameter e 0 fun x => bare_eval x.bare_bare fun v => bare_within ?_ _ _
  exact bare_withParameter e 1 fun y => bare_eval y.bare_bare fun _ => rfl

theorem blind_letName : Blind letName := by
  rintro ⟨head, _ | ⟨x, _ | ⟨y, _ | ⟨z, _ | ⟨w, rest⟩⟩⟩⟩, span⟩
  · rfl
  · cases x <;> rfl
  · cases x <;> rfl
  · cases x with
    | identifier name _ =>
        exact bare_eval y.bare_bare fun v => bare_within (bare_eval z.bare_bare fun _ => rfl) _ _
    | _ => rfl
  · cases x <;> rfl

theorem blind_attempt : Blind attempt := by
  intro e
  refine bare_recover (blind_evaluation .done e) ?_ _
  intro f
  refine congrArg (note _) ?_
  exact bare_withParameter e 1 fun x => bare_eval x.bare_bare fun _ => rfl

theorem blind_capture [HostClasses] : Blind capture := by
  intro e
  have hsource : (Value.code e.bare.node).source? = (Value.code e.node).source? :=
    Value.source?_bare (.code e.node)
  have hlength : e.bare.parameters.length = e.parameters.length := by
    rw [Invocation.bare, Node.bareAll_eq_map, List.length_map]
  rw [capture, capture, hsource, hlength]

theorem blind_wantText : Blind wantText := fun e =>
  bare_withParameter e 0 fun x => bare_expecting x.bare_bare _ fun _ => rfl

theorem blind_invokeIt : Blind invokeIt := fun e =>
  bare_withParameter e 0 fun x => by rw [bare, bare, x.bare_bare]

theorem blind_sample [HostClasses] : ∀ entry ∈ sample, Blind entry.2 := by
  intro entry h
  simp only [sample, List.mem_cons, List.not_mem_nil, or_false] at h
  rcases h with rfl | rfl | rfl | rfl | rfl | rfl | rfl | rfl | rfl | rfl | rfl | rfl | rfl | rfl |
    rfl
  · exact blind_evaluation _
  · exact blind_withX
  · exact blind_letName
  · exact blind_attempt
  · exact blind_capture
  · exact fun e => bare_evalAll e.parameters _
  · exact blind_wantText
  · exact blind_evaluation _
  · exact blind_evaluation _
  · exact blind_invokeIt
  · exact fun e => bare_evalAll e.parameters _
  · exact fun _ => rfl
  · exact fun _ => rfl
  · exact fun _ => rfl
  · exact fun _ => rfl

end Primitive

end HostedLisp
