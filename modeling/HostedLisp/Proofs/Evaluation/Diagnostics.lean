import HostedLisp.Proofs.Evaluation.Depth
import HostedLisp.Proofs.Evaluation.Lockstep
import HostedLisp.Proofs.Evaluation.Reference

namespace HostedLisp

/-- The state without what is kept for reports. -/
def Machine.essential (m : Machine) : Machine :=
  { m with frames := [], activeFrames := 0, depth := 0, current := none, trace := [] }

namespace Machine

theorem erasure_essential : Erasure essential where
  scopes_eq {m m'} h := (congrArg scopes h : m.essential.scopes = m'.essential.scopes)
  scope_eq {m m'} h := (congrArg scope h : m.essential.scope = m'.essential.scope)
  store_eq {m m'} h := (congrArg store h : m.essential.store = m'.essential.store)
  withScopes h s := congrArg (fun n : Machine => { n with scopes := s }) h
  withScope h i := congrArg (fun n : Machine => { n with scope := i }) h
  withStore h s := congrArg (fun n : Machine => { n with store := s }) h

theorem tracing_eq_of_essential {m m' : Machine} (h : m.essential = m'.essential) :
    m.tracing = m'.tracing :=
  (congrArg tracing h : m.essential.tracing = m'.essential.tracing)

theorem essential_traceLine (line : String) (m : Machine) :
    (Run.traceLine line m).2.essential = m.essential := by
  by_cases ht : m.tracing <;> simp [Run.traceLine, Run.modify, ht, Machine.essential]

theorem essential_evaluating {m m' : Machine} (h : m.essential = m'.essential)
    (scope : Option Nat) :
    (m.evaluating scope).essential = (m'.evaluating scope).essential := by
  change { m.essential with scope := scope.getD m.scope } =
    { m'.essential with scope := scope.getD m'.scope }
  rw [h, erasure_essential.scope_eq h]

theorem lockstep_essential :
    Lockstep (fun _ m m' => m.essential = m'.essential) True False where
  sharesMemory _ := erasure_essential.sharesMemory
  visit h _ := h
  traceLine h line := by rw [essential_traceLine, essential_traceLine, h]
  calling h _ := h
  answered _ h := h
  unanswered _ h := h
  evaluating _ _ _ _ h scope := essential_evaluating h scope
  evaluated {_ m m' _ _} h h' := by
    rw [erasure_essential.scope_eq h]
    exact congrArg (fun n : Machine => { n with scope := m'.scope }) h'
  names_eq h := h.elim

end Machine

/-- Whether an action asks for the same next, whichever calls are running. -/
def Action.Heedless : Action → Prop
  | done _ => True
  | fail _ => True
  | eval _ next => ∀ v, Heedless (next v)
  | evalIn _ _ next => ∀ v, Heedless (next v)
  | invoke _ next => ∀ v, Heedless (next v)
  | within _ body next => Heedless body ∧ ∀ v, Heedless (next v)
  | bind _ _ next => Heedless next
  | recover body handler next =>
      Heedless body ∧ (∀ f, Heedless (handler f)) ∧ ∀ v, Heedless (next v)
  | settle _ next => ∀ vs, Heedless (next vs)
  | view next => ∀ names, Heedless (next names)
  | running next => (∀ names names', next names = next names') ∧ ∀ names, Heedless (next names)
  | effect _ next => ∀ v, Heedless (next v)
  | note _ next => Heedless next
  | trace _ next => Heedless next

theorem Action.Admissible.heedless {inBlock : Bool} {a : Action} (h : a.Admissible inBlock) :
    a.Heedless := by
  induction a generalizing inBlock with
  | done | fail => trivial
  | eval x next ih | evalIn r x next ih | invoke x next ih | settle vs next ih | view next ih
  | effect computation next ih => exact fun v => ih v (h v)
  | within bindings body next ihbody ihnext => exact ⟨ihbody h.1, fun v => ihnext v (h.2 v)⟩
  | bind name v next ih => exact ih h.2
  | recover body handler next ihbody ihhandler ihnext =>
      exact ⟨ihbody h.1, fun f => ihhandler f (h.2.1 f), fun v => ihnext v (h.2.2 v)⟩
  | running next ih => exact h.elim
  | note v next ih | trace line next ih => exact ih h

theorem Action.Heedless.restrained {a : Action} (h : a.Heedless) : a.Restrained True False := by
  induction a with
  | done | fail => trivial
  | eval x next ih | evalIn r x next ih => exact ⟨trivial, fun v => ih v (h v)⟩
  | invoke x next ih | settle vs next ih | view next ih | effect computation next ih =>
      exact fun v => ih v (h v)
  | within bindings body next ihbody ihnext => exact ⟨ihbody h.1, fun v => ihnext v (h.2 v)⟩
  | bind name v next ih | note v next ih | trace line next ih => exact ih h
  | recover body handler next ihbody ihhandler ihnext =>
      exact ⟨ihbody h.1, fun f => ihhandler f (h.2.1 f), fun v => ihnext v (h.2.2 v)⟩
  | running next ih => exact ⟨.inr h.1, fun names => ih names (h.2 names)⟩

/-- Whether a primitive does the same, whichever calls are running. -/
def Primitive.Heedless (p : Primitive) : Prop := ∀ e, (p e).Heedless

/-- Whether two computations differ in nothing but what is kept for reports. -/
abbrev Run.Agree {α : Type} (r r' : Run α) : Prop := AlikeUnder Machine.essential r r'

namespace Run.Agree

variable {α β : Type} {r r' : Run α}

theorem ofEffect (e : Effect α) : Agree (Run.ofEffect e) (Run.ofEffect e) :=
  Machine.erasure_essential.ofEffect e

theorem visit_pure (v : Value) : Agree (Run.visit v) (Run.pure ()) := fun _ _ hm => ⟨rfl, hm⟩

theorem traceLine_pure (line : String) : Agree (Run.traceLine line) (Run.pure ()) :=
  fun m _ hm => ⟨rfl, (Machine.essential_traceLine line m).trans hm⟩

theorem bind_of_pure {γ : Type} {q : Run γ} {a : γ} {k : γ → Run α} (hq : Agree q (Run.pure a))
    (h : Agree (k a) r) : Agree (q >>= k) r := by
  intro m m' hm
  obtain ⟨hresult, hstate⟩ := hq m m' hm
  change (Run.bind q k m).1 = (r m').1 ∧ (Run.bind q k m).2.essential = (r m').2.essential
  unfold Run.bind
  cases hr : q m with
  | mk o n =>
      rw [hr] at hresult hstate
      obtain rfl : o = .ok a := hresult
      exact h n m' hstate

theorem framed (h : Agree r r') (frame : Frame) : Agree (Run.framed frame r) r' := by
  intro m m' hm
  have hbody := h (m.calling frame) m' hm
  rw [Run.framed_eq]
  cases hr : r (m.calling frame) with
  | mk o n =>
      rw [hr] at hbody
      cases o <;> exact hbody

theorem evaluation (h : Agree r r') (scope : Option Nat) :
    Agree (Run.evaluation scope r) (Run.evaluation scope r') :=
  Machine.lockstep_essential.inStep_evaluation (d := 0) trivial h scope

theorem evaluation_here (h : Agree r r') (hscope : Balanced r) :
    Agree (Run.evaluation none r) r' := by
  intro m m' hm
  obtain ⟨hresult, hmachines⟩ := h (m.evaluating none) m' hm
  rw [Run.evaluation_eq]
  refine ⟨hresult, ?_⟩
  have hback : (r (m.evaluating none)).2.scope = m.scope := (hscope (m.evaluating none)).1
  rw [← hmachines, ← hback]
  rfl

end Run.Agree

namespace Setting

/-- Whether evaluation with some fuel does not depend on what is kept for reports. -/
structure Undisturbed (env : Setting) (fuel : Nat) : Prop where
  dispatch : ∀ x, (env.dispatch fuel x).Agree (env.dispatch fuel x)
  invoke : ∀ e, (env.invoke fuel e).Agree (env.invoke fuel e)
  perform : ∀ a, a.Heedless → (env.perform fuel a).Agree (env.perform fuel a)
  invokeNode : ∀ x, (env.invokeNode fuel x).Agree (env.invokeNode fuel x)

theorem undisturbed {env : Setting}
    (hprimitives : ∀ entry ∈ env.primitives, Primitive.Heedless entry.2) (fuel : Nat) :
    env.Undisturbed fuel := by
  have h := inStepWith Machine.lockstep_essential
    (fun entry hentry e => (hprimitives entry hentry e).restrained) fuel
  exact ⟨h.dispatch 0, h.invoke 0, fun a ha => h.perform 0 a ha.restrained, h.invokeNode 0⟩

end Setting

end HostedLisp
