import HostedLisp.Eval

namespace HostedLisp

/-- Whether the second computation has the result of the first one, and its state, wherever the
first one does not run out of fuel. -/
def Extends {α : Type} (r r' : Run α) : Prop :=
  ∀ m, (r m).1 ≠ .unfinished → r' m = r m

namespace Extends

variable {α β : Type} {r r' : Run α}

theorem refl (r : Run α) : Extends r r := fun _ _ => rfl

theorem trans {r'' : Run α} (h : Extends r r') (h' : Extends r' r'') : Extends r r'' := by
  intro m hm
  have heq := h m hm
  exact (h' m (heq ▸ hm)).trans heq

theorem unfinished (r : Run α) : Extends Run.unfinished r := fun _ hm => absurd rfl hm

theorem bind {k k' : α → Run β} (h : Extends r r') (hk : ∀ a, Extends (k a) (k' a)) :
    Extends (r >>= k) (r' >>= k') := by
  intro m hm
  have hfirst := h m
  change (Run.bind r k m).1 ≠ .unfinished at hm
  change Run.bind r' k' m = Run.bind r k m
  unfold Run.bind at hm ⊢
  cases hr : r m with
  | mk o m' =>
      rw [hr] at hm hfirst
      cases o with
      | ok a =>
          rw [hfirst nofun]
          exact hk a m' hm
      | failed f => rw [hfirst nofun]
      | unfinished => exact absurd rfl hm

theorem mapAll {γ : Type} {f f' : γ → Run α} (h : ∀ x, Extends (f x) (f' x)) (xs : List γ) :
    Extends (Run.mapAll f xs) (Run.mapAll f' xs) := by
  induction xs with
  | nil => exact refl _
  | cons x xs ih => exact (h x).bind fun y => ih.bind fun ys => refl _

theorem framed (h : Extends r r') (frame : Frame) :
    Extends (Run.framed frame r) (Run.framed frame r') := by
  intro m hm
  unfold Run.framed at hm ⊢
  dsimp only at hm ⊢
  generalize hentered : ({ m with
    frames := m.frames.take m.activeFrames ++ [frame]
    activeFrames := m.activeFrames + 1 } : Machine) = entered at hm ⊢
  have hbody := h entered
  cases hr : r entered with
  | mk o m' =>
      rw [hr] at hm hbody
      cases o with
      | ok a => rw [hbody nofun]
      | failed f => rw [hbody nofun]
      | unfinished => exact absurd rfl hm

theorem evaluation (h : Extends r r') (scope : Option Nat) :
    Extends (Run.evaluation scope r) (Run.evaluation scope r') := by
  intro m hm
  unfold Run.evaluation at hm ⊢
  dsimp only at hm ⊢
  rw [h _ hm]

theorem inChild (h : Extends r r') : Extends (Run.inChild r) (Run.inChild r') := by
  intro m hm
  unfold Run.inChild at hm ⊢
  dsimp only at hm ⊢
  rw [h _ hm]

theorem recover {k k' : Failure → Run α} (h : Extends r r') (hk : ∀ f, Extends (k f) (k' f)) :
    Extends (Run.recover r k) (Run.recover r' k') := by
  intro m hm
  have hbody := h m
  unfold Run.recover at hm ⊢
  cases hr : r m with
  | mk o m' =>
      rw [hr] at hm hbody
      cases o with
      | ok a => rw [hbody nofun]
      | unfinished => exact absurd rfl hm
      | failed f =>
          rw [hbody nofun]
          dsimp only at hm ⊢
          split
          · rename_i hf
            rw [if_pos hf] at hm
            exact hk f m' hm
          · rfl

end Extends

namespace Setting

/-- Whether one more unit of fuel only extends evaluation with some fuel. -/
structure Steady (env : Setting) (fuel : Nat) : Prop where
  dispatch : ∀ x, Extends (env.dispatch fuel x) (env.dispatch (fuel + 1) x)
  invoke : ∀ e, Extends (env.invoke fuel e) (env.invoke (fuel + 1) e)
  perform : ∀ a, Extends (env.perform fuel a) (env.perform (fuel + 1) a)
  invokeNode : ∀ x, Extends (env.invokeNode fuel x) (env.invokeNode (fuel + 1) x)

section Step

variable {env : Setting} {fuel : Nat}

theorem extends_invokeStatic {evaluate evaluate' : Node → Run Value}
    (h : ∀ x, Extends (evaluate x) (evaluate' x)) (path : List String) (member : String)
    (e : Invocation) :
    Extends (env.invokeStatic evaluate path member e)
      (env.invokeStatic evaluate' path member e) := by
  unfold invokeStatic
  refine (Extends.refl _).bind fun found => ?_
  cases found with
  | none => exact .refl _
  | some target => exact (Extends.mapAll h e.parameters).bind fun arguments => .refl _

theorem extends_invokeInstance {evaluate evaluate' : Node → Run Value}
    (h : ∀ x, Extends (evaluate x) (evaluate' x)) (member : String) (e : Invocation) :
    Extends (env.invokeInstance evaluate member e) (env.invokeInstance evaluate' member e) := by
  unfold invokeInstance
  cases e.parameters with
  | nil => exact .refl _
  | cons x rest =>
      refine (h x).bind fun receiver => (Extends.refl _).bind fun _ => ?_
      split
      · exact .refl _
      · exact (Extends.mapAll h rest).bind fun arguments => .refl _

theorem extends_dispatch_succ (h : env.Steady fuel) (x : Node) :
    Extends (env.dispatch (fuel + 1) x) (env.dispatch (fuel + 2) x) := by
  rw [dispatch.eq_def, dispatch.eq_def env (fuel + 2)]
  refine (Extends.refl _).bind fun _ => ?_
  cases x with
  | list xs span => exact (Extends.mapAll h.dispatch xs).bind fun vs => .refl _
  | invocation head parameters span => exact h.invoke _
  | _ => exact .refl _

theorem extends_invoke_succ (h : env.Steady fuel) (e : Invocation) :
    Extends (env.invoke (fuel + 1) e) (env.invoke (fuel + 2) e) := by
  rw [invoke, invoke]
  cases e.head with
  | identifier name span =>
      dsimp only
      cases env.primitives.find? name with
      | none => exact .refl _
      | some p => exact (Extends.refl _).bind fun _ => (h.perform (p e)).framed _
  | staticMember path member span => exact extends_invokeStatic h.dispatch path member e
  | instanceMember member span => exact extends_invokeInstance h.dispatch member e
  | _ => exact .refl _

theorem extends_invokeNode_succ (h : env.Steady fuel) (x : Node) :
    Extends (env.invokeNode (fuel + 1) x) (env.invokeNode (fuel + 2) x) := by
  cases x with
  | invocation head parameters span =>
      rw [invokeNode, invokeNode]
      exact h.invoke _
  | _ => exact .refl _

theorem extends_settled {r r' : Run Value} {k k' : Value → Run Value} (h : Extends r r')
    (hk : ∀ v, Extends (k v) (k' v)) :
    Extends (do k (← Run.ofEffect (Effect.settle (← r))))
      (do k' (← Run.ofEffect (Effect.settle (← r')))) :=
  h.bind fun _ => (Extends.refl _).bind hk

theorem extends_perform_succ (h : env.Steady fuel) (a : Action) :
    Extends (env.perform (fuel + 1) a) (env.perform (fuel + 2) a) := by
  rw [perform.eq_def, perform.eq_def env (fuel + 2)]
  cases a with
  | done v => exact .refl _
  | fail f => exact .refl _
  | eval x next =>
      exact extends_settled ((h.dispatch x).evaluation none) fun v => h.perform (next v)
  | evalIn r x next =>
      refine (Extends.refl (Run.scopeOf r)).bind fun scope => ?_
      exact extends_settled ((h.dispatch x).evaluation scope) fun v => h.perform (next v)
  | invoke x next => exact extends_settled (h.invokeNode x) fun v => h.perform (next v)
  | within bindings body next =>
      have hbody := (Extends.refl (Run.mapAll
        (fun (b : String × Value) => Run.bindHere b.1 b.2) bindings)).bind fun _ => h.perform body
      exact hbody.inChild.bind fun v => h.perform (next v)
  | bind name v next => exact (Extends.refl _).bind fun _ => h.perform next
  | recover body handler next =>
      have hrecover := (h.perform body).recover fun f => h.perform (handler f)
      exact hrecover.bind fun v => h.perform (next v)
  | settle vs next => exact (Extends.refl _).bind fun s => h.perform _
  | view next => exact (Extends.refl Run.read).bind fun m => h.perform _
  | running next => exact (Extends.refl Run.read).bind fun m => h.perform _
  | effect computation next =>
      refine (Extends.refl _).bind fun v => (Extends.refl _).bind fun v => ?_
      exact h.perform (next v)
  | note v next => exact (Extends.refl _).bind fun _ => h.perform next
  | trace line next => exact (Extends.refl _).bind fun _ => h.perform next

theorem steady (env : Setting) (fuel : Nat) : env.Steady fuel := by
  induction fuel with
  | zero =>
      constructor
      · exact fun _ => .unfinished _
      · exact fun _ => .unfinished _
      · exact fun _ => .unfinished _
      · exact fun _ => .unfinished _
  | succ fuel ih =>
      constructor
      · exact extends_dispatch_succ ih
      · exact extends_invoke_succ ih
      · exact extends_perform_succ ih
      · exact extends_invokeNode_succ ih

end Step

theorem extends_dispatch (env : Setting) {fuel fuel' : Nat} (h : fuel ≤ fuel') (x : Node) :
    Extends (env.dispatch fuel x) (env.dispatch fuel' x) := by
  induction h with
  | refl => exact .refl _
  | step _ ih => exact ih.trans ((env.steady _).dispatch x)

end Setting

end HostedLisp
