import HostedLisp.Proofs.Evaluation.Restoration

namespace HostedLisp

/-- Whether a property holds of the computations that leave scope, depth and frames alone, and of
all that are put together from computations of which it holds. -/
structure Compositional (C : ∀ {α : Type}, Run α → Prop) : Prop where
  inert : ∀ {α : Type} {r : Run α}, Inert r → C r
  bind : ∀ {α β : Type} {r : Run α} {k : α → Run β}, C r → (∀ a, C (k a)) → C (r >>= k)
  framed : ∀ {α : Type} {r : Run α}, C r → ∀ frame, C (Run.framed frame r)
  evaluation : ∀ {α : Type} {r : Run α}, C r → ∀ scope, C (Run.evaluation scope r)
  inChild : ∀ {α : Type} {r : Run α}, C r → C (Run.inChild r)
  recover : ∀ {α : Type} {r : Run α} {handler : Failure → Run α},
    C r → (∀ f, C (handler f)) → C (Run.recover r handler)

namespace Compositional

variable {C : ∀ {α : Type}, Run α → Prop} {env : Setting} {fuel : Nat}

theorem mapAll (hC : Compositional C) {α γ : Type} {f : γ → Run α} (h : ∀ x, C (f x))
    (xs : List γ) : C (Run.mapAll f xs) := by
  induction xs with
  | nil => exact hC.inert (.pure [])
  | cons x xs ih =>
      exact hC.bind (h x) fun y => hC.bind ih fun ys => hC.inert (.pure (y :: ys))

/-- Whether a property holds of what the functions of the evaluator do with some fuel. -/
structure HoldsWith (C : ∀ {α : Type}, Run α → Prop) (env : Setting) (fuel : Nat) : Prop where
  dispatch : ∀ x, C (env.dispatch fuel x)
  invoke : ∀ e, C (env.invoke fuel e)
  perform : ∀ a, C (env.perform fuel a)
  invokeNode : ∀ x, C (env.invokeNode fuel x)

section Step

variable (hC : Compositional C)
include hC

theorem visit_bind {α : Type} (v : Value) {k : Unit → Run α} (hk : C (k ())) :
    C (Run.visit v >>= k) :=
  hC.bind (hC.inert (.visit v)) fun _ => hk

theorem ofEffect_bind {α β : Type} (e : Effect α) {k : α → Run β} (hk : ∀ a, C (k a)) :
    C (Run.ofEffect e >>= k) :=
  hC.bind (hC.inert (.ofEffect e)) hk

theorem callMember (line : String) (frame : Frame) (member : Member) (arguments : List Value) :
    C (Run.traceLine line >>= fun _ => env.callMember frame member arguments) :=
  hC.bind (hC.inert (.traceLine line)) fun _ => hC.framed (hC.inert (.ofEffect _)) frame

theorem invokeStatic {evaluate : Node → Run Value} (h : ∀ x, C (evaluate x)) (path : List String)
    (member : String) (e : Invocation) : C (env.invokeStatic evaluate path member e) := by
  unfold Setting.invokeStatic
  refine hC.ofEffect_bind _ fun found => ?_
  cases found with
  | none => exact hC.inert (.fail _)
  | some target =>
      refine hC.bind (hC.mapAll h e.parameters) fun arguments => hC.visit_bind _ ?_
      refine hC.ofEffect_bind _ fun found => ?_
      cases found with
      | none => exact hC.inert (.fail _)
      | some m => exact hC.callMember _ _ m arguments

theorem invokeInstance {evaluate : Node → Run Value} (h : ∀ x, C (evaluate x)) (member : String)
    (e : Invocation) : C (env.invokeInstance evaluate member e) := by
  unfold Setting.invokeInstance
  cases e.parameters with
  | nil => exact hC.inert (.fail _)
  | cons x rest =>
      refine hC.bind (h x) fun receiver => hC.visit_bind _ ?_
      split
      · exact hC.inert (.fail _)
      · refine hC.bind (hC.mapAll h rest) fun arguments => hC.visit_bind _ ?_
        refine hC.ofEffect_bind _ fun found => ?_
        cases found with
        | none => exact hC.inert (.fail _)
        | some m => exact hC.callMember _ _ m _

theorem dispatch_succ (h : HoldsWith C env fuel) (x : Node) : C (env.dispatch (fuel + 1) x) := by
  rw [Setting.dispatch.eq_def]
  refine hC.visit_bind _ ?_
  cases x with
  | error message span => exact hC.inert (.fail _)
  | literal value span => exact hC.inert (.pure _)
  | identifier name span => exact hC.inert (.lookup name)
  | list xs span => exact hC.bind (hC.mapAll h.dispatch xs) fun vs => hC.inert (.ofEffect _)
  | quote inner span => exact hC.inert (.pure _)
  | invocation head parameters span => exact h.invoke _
  | instanceMember member span => exact hC.inert (.fail _)
  | staticMember path member span => exact hC.inert (.fail _)

theorem invoke_succ (h : HoldsWith C env fuel) (e : Invocation) : C (env.invoke (fuel + 1) e) := by
  rw [Setting.invoke]
  cases e.head with
  | identifier name span =>
      dsimp only
      cases env.primitives.find? name with
      | none => exact hC.inert (.fail _)
      | some p => exact hC.bind (hC.inert (.traceLine _)) fun _ => hC.framed (h.perform (p e)) _
  | staticMember path member span => exact hC.invokeStatic h.dispatch path member e
  | instanceMember member span => exact hC.invokeInstance h.dispatch member e
  | _ => exact hC.inert (.fail _)

theorem invokeNode_succ (h : HoldsWith C env fuel) (x : Node) :
    C (env.invokeNode (fuel + 1) x) := by
  cases x with
  | invocation head parameters span =>
      rw [Setting.invokeNode]
      exact h.invoke _
  | _ => exact hC.inert (.fail _)

theorem perform_succ (h : HoldsWith C env fuel) (a : Action) : C (env.perform (fuel + 1) a) := by
  -- A value on its way to a primitive is brought up to date, which changes nothing else.
  have hnext : ∀ {r : Run Value} {next : Value → Action}, C r → C (do
      env.perform fuel (next (← Run.ofEffect (Effect.settle (← r))))) := fun hr =>
    hC.bind hr fun v => hC.ofEffect_bind _ fun v => h.perform _
  rw [Setting.perform.eq_def]
  cases a with
  | done v => exact hC.inert (.ofEffect _)
  | fail f => exact hC.inert (.fail f)
  | eval x next => exact hnext (hC.evaluation (h.dispatch x) none)
  | evalIn r x next =>
      exact hC.bind (hC.inert (.scopeOf r)) fun scope => hnext (hC.evaluation (h.dispatch x) scope)
  | invoke x next => exact hnext (h.invokeNode x)
  | within bindings body next =>
      have hblock := hC.inChild (hC.bind (hC.inert (.bindAll bindings)) fun _ => h.perform body)
      exact hC.bind hblock fun v => h.perform (next v)
  | bind name v next => exact hC.bind (hC.inert (.bindHere name v)) fun _ => h.perform next
  | recover body handler next =>
      have hrecover := hC.recover (h.perform body) fun f => h.perform (handler f)
      exact hC.bind hrecover fun v => h.perform (next v)
  | settle vs next => exact hC.ofEffect_bind _ fun s => h.perform _
  | view next => exact hC.bind (hC.inert .read) fun m => h.perform _
  | running next => exact hC.bind (hC.inert .read) fun m => h.perform _
  | effect computation next =>
      exact hC.ofEffect_bind _ fun v => hC.ofEffect_bind _ fun v => h.perform (next v)
  | note v next => exact hC.ofEffect_bind _ fun _ => h.perform next
  | trace line next => exact hC.bind (hC.inert (.traceLine line)) fun _ => h.perform next

theorem holdsWith (env : Setting) (fuel : Nat) : HoldsWith C env fuel := by
  induction fuel with
  | zero =>
      constructor
      · exact fun _ => hC.inert .unfinished
      · exact fun _ => hC.inert .unfinished
      · exact fun _ => hC.inert .unfinished
      · exact fun _ => hC.inert .unfinished
  | succ fuel ih =>
      constructor
      · exact hC.dispatch_succ ih
      · exact hC.invoke_succ ih
      · exact hC.perform_succ ih
      · exact hC.invokeNode_succ ih

end Step

end Compositional

/-- Whether a computation leaves the depth alone. -/
def Level {α : Type} (r : Run α) : Prop := ∀ m : Machine, (r m).2.depth = m.depth

/-- Whether a computation leaves the scope, the depth and the number of active frames alone. -/
def Balanced {α : Type} (r : Run α) : Prop :=
  ∀ m : Machine, (r m).2.scope = m.scope ∧ (r m).2.depth = m.depth ∧
    (r m).2.activeFrames = m.activeFrames

theorem Balanced.level {α : Type} {r : Run α} (h : Balanced r) : Level r := fun m => (h m).2.1

theorem Balanced.trans {α β : Type} {r : Run α} {r' : Run β} {m m' : Machine} {o : Outcome α}
    (hr : r m = (o, m')) (h : Balanced r) (h' : Balanced r') :
    (r' m').2.scope = m.scope ∧ (r' m').2.depth = m.depth ∧
      (r' m').2.activeFrames = m.activeFrames := by
  obtain ⟨hscope, hdepth, hactive⟩ := h m
  obtain ⟨hscope', hdepth', hactive'⟩ := h' m'
  rw [hr] at hscope hdepth hactive
  exact ⟨hscope'.trans hscope, hdepth'.trans hdepth, hactive'.trans hactive⟩

theorem compositional_balanced : Compositional Balanced where
  inert h m := ⟨(h m).1, (h m).2.1, (h m).2.2.1⟩
  bind {_ _ r k} h hk m := by
    have hfirst := h m
    change (Run.bind r k m).2.scope = m.scope ∧ (Run.bind r k m).2.depth = m.depth ∧
      (Run.bind r k m).2.activeFrames = m.activeFrames
    unfold Run.bind
    cases hr : r m with
    | mk o m' =>
        rw [hr] at hfirst
        cases o with
        | ok a => exact h.trans hr (hk a)
        | failed f => exact hfirst
        | unfinished => exact hfirst
  framed {_ r} h frame m := by
    have hcall := h (m.calling frame)
    rw [Run.framed_eq]
    cases hr : r (m.calling frame) with
    | mk o m' =>
        rw [hr] at hcall
        cases o <;> exact ⟨hcall.1, hcall.2.1, rfl⟩
  evaluation h scope m :=
    have hbody := h (m.evaluating scope)
    ⟨rfl, congrArg (· - 1) hbody.2.1, hbody.2.2⟩
  inChild h m := ⟨rfl, (h m.opening).2⟩
  recover {_ r handler} h hh m := by
    have hbody := h m
    unfold Run.recover
    cases hr : r m with
    | mk o m' =>
        rw [hr] at hbody
        cases o with
        | ok a => exact hbody
        | unfinished => exact hbody
        | failed f =>
            dsimp only
            split
            · exact h.trans hr (hh f)
            · exact hbody

namespace Setting

theorem balanced_dispatch (env : Setting) (fuel : Nat) (x : Node) :
    Balanced (env.dispatch fuel x) :=
  (compositional_balanced.holdsWith env fuel).dispatch x

theorem balanced_evaluation (env : Setting) (fuel : Nat) (x : Node) (scope : Option Nat) :
    Balanced (Run.evaluation scope (env.dispatch fuel x)) :=
  compositional_balanced.evaluation (env.balanced_dispatch fuel x) scope

theorem depth_eval (env : Setting) (x : Node) (scope : Option Nat) (m : Machine) :
    (env.eval x scope m).2.depth = m.depth :=
  (env.balanced_evaluation ample x scope).level m

end Setting

end HostedLisp
