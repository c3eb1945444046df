import HostedLisp.Host.Builtin
import HostedLisp.Host.Sample
import HostedLisp.Host.Table
import HostedLisp.Primitive.Library
import HostedLisp.Primitive.Sample
import HostedLisp.Primitive.Standard
import HostedLisp.Proofs.Evaluation.Refinement

/-!
Evaluation and the pure evaluator. Main statement: with primitives that ask for nothing else,
evaluation has the result and the store of the pure evaluator over the chain of its scope. So
neither the frames, nor the node at hand, nor the depth, nor the trace make a difference.
-/

namespace HostedLisp

namespace Primitive

section Admissible

variable {inBlock : Bool}

theorem admissible_ofExcept {α : Type} {next : α → Action} (r : Except Failure α)
    (h : ∀ a, (next a).Admissible inBlock) : (Action.ofExcept r next).Admissible inBlock := by
  cases r with
  | ok a => exact h a
  | error f => trivial

theorem admissible_evalAll {next : List Value → Action} (xs : List Node)
    (h : ∀ vs, (next vs).Admissible inBlock) : (Action.evalAll xs next).Admissible inBlock := by
  have hgo : ∀ xs vs, (Action.evalAll.go next xs vs).Admissible inBlock := by
    intro xs
    induction xs with
    | nil =>
        intro vs
        exact h
    | cons x rest ih =>
        intro vs v
        exact ih (v :: vs)
  exact hgo xs []

theorem admissible_expecting {next : Value → Action} (x : Node) (wanted : ValueType)
    (h : ∀ v, (next v).Admissible inBlock) :
    (Action.expecting x wanted next).Admissible inBlock := by
  intro v
  dsimp only
  split
  · exact h v
  · trivial

theorem admissible_force (e : Invocation) : (force e).Admissible inBlock := by
  unfold force
  split
  · intro v
    dsimp only
    split
    · exact fun _ => trivial
    · trivial
  · trivial

theorem admissible_choose (e : Invocation) : (choose e).Admissible inBlock := by
  unfold choose
  split
  · intro v
    simp only [Action.Admissible]
    split
    · exact fun _ => trivial
    · exact fun _ => trivial
    · trivial
  · trivial

theorem admissible_compare (name : String) (wanted : Bool) (e : Invocation) :
    (compare name wanted e).Admissible inBlock := by
  unfold compare
  split
  · apply admissible_evalAll
    intro vs
    split <;> trivial
  · trivial

variable [HostClasses]

theorem admissible_textOf (e : Invocation) : (textOf e).Admissible inBlock := by
  unfold textOf
  split
  · intro v
    exact admissible_ofExcept _ fun _ => trivial
  · trivial

theorem admissible_concat (e : Invocation) : (concat e).Admissible inBlock :=
  admissible_evalAll _ fun _ => admissible_ofExcept _ fun _ => trivial

omit [HostClasses] in
theorem admissible_columns (name : String) (column : String → String → String) (e : Invocation) :
    (columns name column e).Admissible inBlock := by
  unfold columns
  split
  · refine admissible_expecting _ _ fun table => admissible_expecting _ _ fun names => ?_
    split
    · exact admissible_ofExcept _ fun _ => trivial
    · trivial
  · trivial

theorem admissible_serializeValue (e : Invocation) :
    (serializeValue e).Admissible inBlock := by
  unfold serializeValue
  split
  · refine admissible_expecting _ _ fun format => ?_
    intro v
    dsimp only
    split <;> trivial
  · trivial

theorem admissible_renderOver (c : Catalogue) (template : Value) (names : List (Value × Value)) :
    (renderOver c template names).Admissible inBlock :=
  fun _ => trivial

theorem admissible_render (c : Catalogue) (e : Invocation) :
    (render c e).Admissible inBlock := by
  unfold render
  split
  · refine admissible_expecting _ _ fun template => ?_
    intro flat
    exact admissible_renderOver c template _
  · refine admissible_expecting _ _ fun template => ?_
    intro flat context
    dsimp only
    split
    · exact admissible_renderOver c template _
    · trivial
  · trivial

omit [HostClasses] in
theorem admissible_standard {entry : String × Primitive} (h : entry ∈ standard) (e : Invocation) :
    (entry.2 e).Admissible inBlock := by
  simp only [standard, List.mem_cons, List.not_mem_nil, or_false] at h
  rcases h with rfl | rfl | rfl | rfl
  · exact admissible_compare _ _ e
  · exact admissible_force e
  · exact admissible_choose e
  · exact admissible_compare _ _ e

theorem admissible_library (c : Catalogue) {entry : String × Primitive} (h : entry ∈ library c)
    (e : Invocation) : (entry.2 e).Admissible inBlock := by
  simp only [library, List.mem_cons, List.not_mem_nil, or_false] at h
  rcases h with rfl | rfl | rfl | rfl | rfl | rfl
  · exact admissible_concat e
  · exact admissible_columns _ _ e
  · exact admissible_columns _ _ e
  · exact admissible_render c e
  · exact admissible_serializeValue e
  · exact admissible_textOf e

end Admissible

end Primitive

namespace Setting

/-- Whether evaluation with some fuel is in step with the pure evaluator. -/
structure InStep (env : Setting) (fuel : Nat) : Prop where
  dispatch : ∀ x, Refines (env.dispatch fuel x) (env.value fuel x)
  invoke : ∀ e, Refines (env.invoke fuel e) (env.valueOfInvocation fuel e)
  perform : ∀ opened a, a.Admissible opened →
    Simulates opened (env.perform fuel a) (env.valueOfAction fuel a)
  invokeNode : ∀ x, Refines (env.invokeNode fuel x) (env.valueOfInvokedNode fuel x)

section Step

variable {env : Setting} {fuel : Nat}

theorem refines_resolveMember (target : Value) (name : String) (types : Option (List ValueType)) :
    Refines (env.resolveMember target name types)
      (Scoped.ofEffect (env.memberOf target name types)) :=
  Refines.ofEffect _

theorem refines_callMember (frame : Frame) (member : Member) (arguments : List Value) :
    Refines (env.callMember frame member arguments)
      (Scoped.ofEffect (env.memberValue member arguments)) :=
  (Refines.ofEffect (env.memberValue member arguments)).framed frame

theorem refines_invokeStatic {evaluate : Node → Run Value} {value : Node → Scoped Value}
    (h : ∀ x, Refines (evaluate x) (value x)) (path : List String) (member : String)
    (e : Invocation) :
    Refines (env.invokeStatic evaluate path member e)
      (env.staticValue value path member e.parameters) := by
  unfold invokeStatic staticValue
  refine (Refines.ofEffect _).bind fun found => ?_
  cases found with
  | none => exact Refines.fail _
  | some target =>
      refine (Refines.mapAll h e.parameters).bind fun arguments => ?_
      refine Refines.silent_bind (silent_visit _) ?_
      refine (refines_resolveMember target member none).bind fun found => ?_
      cases found with
      | none => exact Refines.fail _
      | some m => exact Refines.silent_bind (silent_traceLine _) (refines_callMember _ m arguments)

theorem refines_invokeInstance {evaluate : Node → Run Value} {value : Node → Scoped Value}
    (h : ∀ x, Refines (evaluate x) (value x)) (member : String) (e : Invocation) :
    Refines (env.invokeInstance evaluate member e)
      (env.instanceValue value member e.parameters) := by
  unfold invokeInstance instanceValue
  cases e.parameters with
  | nil => exact Refines.fail _
  | cons x rest =>
      refine (h x).bind fun receiver => ?_
      refine Refines.silent_bind (silent_visit _) ?_
      dsimp only
      split
      · exact Refines.fail _
      · refine (Refines.mapAll h rest).bind fun arguments => ?_
        refine Refines.silent_bind (silent_visit _) ?_
        refine (refines_resolveMember receiver member _).bind fun found => ?_
        cases found with
        | none => exact Refines.fail _
        | some m =>
            exact Refines.silent_bind (silent_traceLine _) (refines_callMember _ m arguments)

theorem refines_dispatch_succ (h : env.InStep fuel) (x : Node) :
    Refines (env.dispatch (fuel + 1) x) (env.value (fuel + 1) x) := by
  rw [dispatch.eq_def, value.eq_def]
  refine Refines.silent_bind (silent_visit _) ?_
  cases x with
  | error message span => exact Refines.fail _
  | literal value span => exact Refines.pure _
  | identifier name span => exact Refines.lookup name
  | list xs span =>
      exact (Refines.mapAll h.dispatch xs).bind fun vs => Refines.ofEffect _
  | quote inner span => exact Refines.pure _
  | invocation head parameters span => exact h.invoke _
  | instanceMember member span => exact Refines.fail _
  | staticMember path member span => exact Refines.fail _

theorem refines_invoke_succ (h : env.InStep fuel)
    (hprimitives : ∀ entry ∈ env.primitives, ∀ e, (entry.2 e).Admissible false) (e : Invocation) :
    Refines (env.invoke (fuel + 1) e) (env.valueOfInvocation (fuel + 1) e) := by
  rw [invoke, valueOfInvocation]
  cases e.head with
  | identifier name span =>
      dsimp only
      cases hfound : env.primitives.find? name with
      | none => exact Refines.fail _
      | some p =>
          have hp : ∀ e, (p e).Admissible false := by
            obtain ⟨entry, hentry, rfl⟩ := Option.map_eq_some_iff.mp hfound
            exact hprimitives entry (List.mem_of_find?_eq_some hentry)
          refine Refines.silent_bind (silent_traceLine _) ?_
          exact (h.perform false (p e) (hp e)).run.framed _
  | staticMember path member span => exact refines_invokeStatic h.dispatch path member e
  | instanceMember member span => exact refines_invokeInstance h.dispatch member e
  | error message span => exact Refines.fail _
  | literal value span => exact Refines.fail _
  | list xs span => exact Refines.fail _
  | quote inner span => exact Refines.fail _
  | invocation head parameters span => exact Refines.fail _

theorem refines_invokeNode_succ (h : env.InStep fuel) (x : Node) :
    Refines (env.invokeNode (fuel + 1) x) (env.valueOfInvokedNode (fuel + 1) x) := by
  cases x with
  | invocation head parameters span =>
      rw [invokeNode, valueOfInvokedNode]
      exact h.invoke _
  | _ => exact Refines.fail _

theorem simulates_settled {opened : Bool} {r : Run Value} {f : Scoped Value} {k : Value → Run Value}
    {g : Value → Block Value} (hr : Refines r f) (hk : ∀ v, Simulates opened (k v) (g v)) :
    Simulates opened (do k (← Run.ofEffect (Effect.settle (← r))))
      (do g (← Block.ofScoped (Scoped.ofEffect (Effect.settle (← Block.ofScoped f))))) :=
  (Simulates.ofScoped hr).bind fun v =>
    (Simulates.ofScoped (Refines.ofEffect (Effect.settle v))).bind hk

theorem simulates_perform_succ (h : env.InStep fuel) (opened : Bool) (a : Action)
    (ha : a.Admissible opened) :
    Simulates opened (env.perform (fuel + 1) a) (env.valueOfAction (fuel + 1) a) := by
  rw [perform.eq_def, valueOfAction.eq_def]
  cases a with
  | done v => exact Simulates.ofScoped (Refines.ofEffect _)
  | fail f => exact Simulates.fail f
  | eval x next =>
      have hx : Refines (Run.evaluation none (env.dispatch fuel x)) (env.value fuel x) :=
        fun m hm => (h.dispatch x).evaluation none hm
      exact simulates_settled hx fun v => h.perform opened (next v) (ha v)
  | evalIn r x next =>
      dsimp only
      rw [← Run.bind_assoc]
      exact simulates_settled ((h.dispatch x).inside r) fun v => h.perform opened (next v) (ha v)
  | invoke x next =>
      exact simulates_settled (h.invokeNode x) fun v => h.perform opened (next v) (ha v)
  | within bindings body next =>
      obtain ⟨hbody, hnext⟩ := ha
      have hbindings := Simulates.mapAll
        (fun (b : String × Value) => Simulates.bindHere b.1 b.2) bindings
      have hblock := (hbindings.bind fun _ => h.perform true body hbody).inChild
      exact (Simulates.ofScoped hblock).bind fun v => h.perform opened (next v) (hnext v)
  | bind name v next =>
      obtain ⟨rfl, hnext⟩ := ha
      exact (Simulates.bindHere name v).bind fun _ => h.perform true next hnext
  | recover body handler next =>
      obtain ⟨hbody, hhandler, hnext⟩ := ha
      have hrecover := (h.perform opened body hbody).recover fun f =>
        h.perform opened (handler f) (hhandler f)
      exact hrecover.bind fun v => h.perform opened (next v) (hnext v)
  | settle vs next =>
      intro m hm
      exact h.perform opened (next (m.store.settleAll vs)) (ha _) m hm
  | view next =>
      intro m hm
      exact h.perform opened (next ((m.scopes.chain m.scope).flatten.map fun e =>
        (e.1, m.store.settle e.2))) (ha _) m hm
  | running next => exact ha.elim
  | effect computation next =>
      refine (Simulates.ofScoped (Refines.ofEffect computation)).bind fun v => ?_
      refine (Simulates.ofScoped (Refines.ofEffect (Effect.adopt v))).bind fun v => ?_
      exact h.perform opened (next v) (ha v)
  | note v next =>
      exact (Simulates.ofScoped (Refines.ofEffect _)).bind fun _ => h.perform opened next ha
  | trace line next =>
      exact Simulates.silent_bind (silent_traceLine line) (h.perform opened next ha)

theorem inStep (hprimitives : ∀ entry ∈ env.primitives, ∀ e, (entry.2 e).Admissible false)
    (fuel : Nat) : env.InStep fuel := by
  -- All four at once, since each function calls the others with the fuel that is left.
  induction fuel with
  | zero =>
      constructor
      · exact fun _ => Refines.unfinished
      · exact fun _ => Refines.unfinished
      · exact fun _ _ _ => Simulates.unfinished
      · exact fun _ => Refines.unfinished
  | succ fuel ih =>
      constructor
      · exact refines_dispatch_succ ih
      · exact refines_invoke_succ ih hprimitives
      · exact simulates_perform_succ ih
      · exact refines_invokeNode_succ ih

end Step

/-- Evaluation has the result and the store of the pure evaluator over the chain of its scope, and
none of the rest of the state makes a difference. The host is any, so one that writes its requests
and calls into the store shows that these are the same and come in the same order. -/
theorem evaluation_eq_value [HostClasses] (env : Setting) (c : Catalogue)
    (hprimitives : ∀ entry ∈ env.primitives, entry ∈ Primitive.standard ∨
      entry ∈ Primitive.library c ∨ ∀ e, (entry.2 e).Admissible false)
    (fuel : Nat) (x : Node) (scope : Option Nat) (m : Machine)
    (hscope : scope.getD m.scope < m.scopes.all.length) :
    env.value fuel x (m.scopes.chain (scope.getD m.scope)) m.store =
        ((Run.evaluation scope (env.dispatch fuel x) m).1,
          (Run.evaluation scope (env.dispatch fuel x) m).2.store) ∧
      ∀ frames activeFrames depth current tracing trace,
        let m' : Machine :=
          ⟨m.scopes, m.scope, frames, activeFrames, depth, current, m.store, tracing, trace⟩
        (Run.evaluation scope (env.dispatch fuel x) m').1 =
            (Run.evaluation scope (env.dispatch fuel x) m).1 ∧
          (Run.evaluation scope (env.dispatch fuel x) m').2.store =
            (Run.evaluation scope (env.dispatch fuel x) m).2.store := by
  have hadmissible : ∀ entry ∈ env.primitives, ∀ e, (entry.2 e).Admissible false := by
    intro entry hentry e
    rcases hprimitives entry hentry with h | h | h
    · exact Primitive.admissible_standard h e
    · exact Primitive.admissible_library c h e
    · exact h e
  have hx : Refines (env.dispatch fuel x) (env.value fuel x) :=
    (inStep hadmissible fuel).dispatch x
  obtain ⟨hresult, -, -⟩ := hx.evaluation scope hscope
  refine ⟨hresult, ?_⟩
  intro frames activeFrames depth current tracing trace m'
  obtain ⟨hresult', -, -⟩ := hx.evaluation (m := m') scope hscope
  exact Prod.mk.inj (hresult'.symm.trans hresult)

open scoped Sample

/-- A member that is missing is asked for, noted as a failure, and recovered from. -/
theorem evaluation_recovers_from_missing_member :
    let env : Setting := ⟨Table.host, Primitive.standard ++ [("try", Primitive.attempt)]⟩
    let x : Node := .invocation (.identifier "try" .absent)
      [.invocation (.staticMember ["T"] "nope" .absent) [] .absent,
        .literal (.integer 2) .absent] .absent
    (Run.evaluation none (env.dispatch 8 x) Machine.initial).1 = .ok (.int 2) ∧
      (Run.evaluation none (env.dispatch 8 x) Machine.initial).2.store.events.length = 3 := by
  intro env x
  have hattempt : ∀ e, (Primitive.attempt e).Admissible false := by
    have hparameter : ∀ (e : Invocation) (i : Nat),
        (e.withParameter i fun y => .eval y .done).Admissible false := by
      intro e i
      unfold Invocation.withParameter
      split
      · exact fun _ => trivial
      · trivial
    exact fun e => ⟨hparameter e 0, fun _ => hparameter e 1, fun _ => trivial⟩
  have hprimitives : ∀ entry ∈ env.primitives, entry ∈ Primitive.standard ∨
      entry ∈ Primitive.library Builtin.catalogue ∨ ∀ e, (entry.2 e).Admissible false := by
    intro entry hentry
    rcases List.mem_append.mp hentry with h | h
    · exact .inl h
    · obtain rfl := List.mem_singleton.mp h
      exact .inr (.inr hattempt)
  have hchain : Machine.initial.scopes.chain 0 = [[]] := by
    rw [Scopes.chain, Scopes.path]
    rfl
  have hresult :=
    (evaluation_eq_value env Builtin.catalogue hprimitives 8 x none Machine.initial (by decide)).1
  change env.value 8 x (Machine.initial.scopes.chain 0) Store.empty = _ at hresult
  rw [hchain] at hresult
  obtain ⟨hvalue, hstore⟩ := Prod.mk.inj hresult
  rw [← hvalue, ← hstore]
  constructor
  · rfl
  · rfl

end Setting

end HostedLisp
