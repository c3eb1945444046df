import HostedLisp.Proofs.Evaluation.Restoration
import HostedLisp.Script

namespace HostedLisp

/-- Whether a relation holds of what is left as it was, and passes on from one step to the next. -/
structure Preordered {α : Type} (R : α → α → Prop) : Prop where
  refl : ∀ a, R a a
  trans : ∀ {a b c}, R a b → R b c → R a c

/-- Whether a computation ends in a machine that is in a relation to the one it started in. -/
def Run.Keeps {α : Type} (R : Machine → Machine → Prop) (r : Run α) : Prop :=
  ∀ m, R m (r m).2

namespace Run.Keeps

variable {α β : Type} {R : Machine → Machine → Prop} {r : Run α}

section Combinators

variable (hR : Preordered R)
include hR

theorem pure (a : α) : Keeps R (Run.pure a) := fun _ => hR.refl _

theorem fail (f : Failure) : Keeps R (Run.fail f : Run α) := fun _ => hR.refl _

theorem read : Keeps R Run.read := fun _ => hR.refl _

theorem bind_of_answer {k : α → Run β} (h : Keeps R r)
    (hk : ∀ m a, (r m).1 = .ok a → R (r m).2 (k a (r m).2).2) : Keeps R (r >>= k) := by
  intro m
  have hfirst := h m
  have hsecond := hk m
  change R m (Run.bind r k m).2
  unfold Run.bind
  cases hr : r m with
  | mk o m' =>
      rw [hr] at hfirst hsecond
      cases o with
      | ok a => exact hR.trans hfirst (hsecond a rfl)
      | failed f => exact hfirst
      | unfinished => exact hfirst

theorem bind {k : α → Run β} (h : Keeps R r) (hk : ∀ a, Keeps R (k a)) : Keeps R (r >>= k) :=
  bind_of_answer hR h fun m a _ => hk a (r m).2

theorem mapAll {γ : Type} {f : γ → Run α} (h : ∀ x, Keeps R (f x)) (xs : List γ) :
    Keeps R (Run.mapAll f xs) := by
  induction xs with
  | nil => exact pure hR []
  | cons x xs ih => exact bind hR (h x) fun y => bind hR ih fun ys => pure hR (y :: ys)

theorem recover {handler : Failure → Run α} (h : Keeps R r) (hh : ∀ f, Keeps R (handler f)) :
    Keeps R (Run.recover r handler) := by
  intro m
  have hbody := h m
  unfold Run.recover
  cases hr : r m with
  | mk o m' =>
      rw [hr] at hbody
      cases o with
      | ok a => exact hbody
      | unfinished => exact hbody
      | failed f =>
          dsimp only
          split
          · exact hR.trans hbody (hh f m')
          · exact hbody

theorem scopeOf (hadd : ∀ parent bindings, Keeps R (Run.addScope parent bindings))
    (ref : ScopeRef) : Keeps R (Run.scopeOf ref) := by
  induction ref with
  | absent => exact pure hR none
  | here => exact fun _ => hR.refl _
  | parent ref ih =>
      rw [Run.scopeOf]
      refine bind hR ih fun found => ?_
      cases found with
      | none => exact fail hR _
      | some i => exact fun _ => hR.refl _
  | child ref bindings ih =>
      rw [Run.scopeOf]
      exact bind hR ih fun parent => bind hR (hadd parent bindings) fun i => pure hR (some i)

end Combinators

end Run.Keeps

/-- What lasts longer than an evaluation: the scopes and the store. -/
structure Memory where
  scopes : Scopes
  store : Store

def Machine.memory (m : Machine) : Memory := ⟨m.scopes, m.store⟩

variable {α β : Type} {R : Memory → Memory → Prop}

/-- Whether a computation over the store keeps to a relation between memories. -/
def Effect.Conserves (R : Memory → Memory → Prop) (e : Effect α) : Prop :=
  ∀ t s, R ⟨t, s⟩ ⟨t, (e s).2⟩

def Run.Conserves (R : Memory → Memory → Prop) (r : Run α) : Prop :=
  r.Keeps fun m m' => R m.memory m'.memory

/-- Whether an evaluator keeps to a relation by itself. -/
structure Memory.Conserved (R : Memory → Memory → Prop) : Prop extends Preordered R where
  adopt : ∀ v, (Effect.adopt v).Conserves R
  note : ∀ v, (Effect.modify fun s => s.record (.noted v)).Conserves R

namespace Effect.Conserves

variable {e : Effect α}

theorem of_unchanged (hR : Preordered R) (h : ∀ s, (e s).2 = s) : Conserves R e := by
  intro t s
  rw [h s]
  exact hR.refl _

theorem pure (hR : Preordered R) (a : α) : Conserves R (Pure.pure a : Effect α) :=
  of_unchanged hR fun _ => rfl

theorem fail (hR : Preordered R) (f : Failure) : Conserves R (Effect.fail f : Effect α) :=
  of_unchanged hR fun _ => rfl

theorem settle (hR : Preordered R) (v : Value) : Conserves R (Effect.settle v) :=
  of_unchanged hR fun _ => rfl

theorem ofExcept (hR : Preordered R) (result : Except Failure α) :
    Conserves R (Effect.ofExcept result) := by
  refine of_unchanged hR fun _ => ?_
  cases result <;> rfl

theorem ofExcept_bind (hR : Preordered R) {result : Except Failure α} {k : α → Effect β}
    (hk : ∀ a, result = .ok a → Conserves R (k a)) :
    Conserves R (Effect.ofExcept result >>= k) := by
  cases result with
  | ok a => exact hk a rfl
  | error f => exact fail hR f

theorem read_bind {k : Store → Effect β} (hk : ∀ s, Conserves R (k s)) :
    Conserves R (Effect.read >>= k) :=
  fun t s => hk s t s

theorem bind (hR : Preordered R) {k : α → Effect β} (h : Conserves R e)
    (hk : ∀ a, Conserves R (k a)) : Conserves R (e >>= k) := by
  intro t s
  have hfirst := h t s
  change R _ ⟨t, (Effect.bind e k s).2⟩
  unfold Effect.bind
  cases hs : e s with
  | mk result s' =>
      rw [hs] at hfirst
      cases result with
      | ok a => exact hR.trans hfirst (hk a t s')
      | error f => exact hfirst

end Effect.Conserves

namespace Run.Conserves

variable {r : Run α}

theorem preordered (hR : Preordered R) :
    Preordered fun m m' : Machine => R m.memory m'.memory where
  refl _ := hR.refl _
  trans h h' := hR.trans h h'

theorem of_unchanged (hR : Preordered R) (h : ∀ m, (r m).2.memory = m.memory) :
    Conserves R r := by
  intro m
  rw [h m]
  exact hR.refl _

theorem ofEffect {e : Effect α} (h : e.Conserves R) : Conserves R (Run.ofEffect e) :=
  fun m => h m.scopes m.store

theorem bind (hR : Preordered R) {k : α → Run β} (h : Conserves R r)
    (hk : ∀ a, Conserves R (k a)) : Conserves R (r >>= k) :=
  Keeps.bind (preordered hR) h hk

theorem framed (h : Conserves R r) (frame : Frame) : Conserves R (Run.framed frame r) := by
  intro m
  have hbody := h (m.calling frame)
  rw [Run.framed_eq]
  cases hr : r (m.calling frame) with
  | mk o m' =>
      rw [hr] at hbody
      cases o <;> exact hbody

theorem evaluation (h : Conserves R r) (scope : Option Nat) :
    Conserves R (Run.evaluation scope r) :=
  fun m => h (m.evaluating scope)

theorem mapAll (hR : Preordered R) {γ : Type} {f : γ → Run α} (h : ∀ x, Conserves R (f x))
    (xs : List γ) : Conserves R (Run.mapAll f xs) :=
  Keeps.mapAll (preordered hR) h xs

theorem pure (hR : Preordered R) (a : α) : Conserves R (Run.pure a) := fun _ => hR.refl _

theorem fail (hR : Preordered R) (f : Failure) : Conserves R (Run.fail f : Run α) :=
  fun _ => hR.refl _

theorem visit (hR : Preordered R) (v : Value) : Conserves R (Run.visit v) := fun _ => hR.refl _

theorem traceLine (hR : Preordered R) (line : String) : Conserves R (Run.traceLine line) := by
  refine of_unchanged hR fun m => ?_
  by_cases h : m.tracing <;> simp [Run.traceLine, Run.modify, h, Machine.memory]

end Run.Conserves

/-- Opens a scope with some bindings and runs a computation in it. -/
def Run.block (bindings : List (String × Value)) (body : Run α) : Run α :=
  Run.inChild do
    let _ ← Run.mapAll (fun (b : String × Value) => Run.bindHere b.1 b.2) bindings
    body

/-- Whether the requests of a primitive keep to a relation: where it changes the scopes or has a
computation done over the store. -/
inductive Action.Conserves (R : Memory → Memory → Prop) : Action → Prop where
  | done (v : Value) : Conserves R (.done v)
  | fail (f : Failure) : Conserves R (.fail f)
  | eval {x : Node} {next : Value → Action} (hnext : ∀ v, Conserves R (next v)) :
      Conserves R (.eval x next)
  | evalIn {r : ScopeRef} {x : Node} {next : Value → Action}
      (hscope : (Run.scopeOf r).Conserves R) (hnext : ∀ v, Conserves R (next v)) :
      Conserves R (.evalIn r x next)
  | invoke {x : Node} {next : Value → Action} (hnext : ∀ v, Conserves R (next v)) :
      Conserves R (.invoke x next)
  | within {bindings : List (String × Value)} {body : Action} {next : Value → Action}
      (hblock : ∀ r : Run Value, r.Conserves R → (Run.block bindings r).Conserves R)
      (hbody : Conserves R body) (hnext : ∀ v, Conserves R (next v)) :
      Conserves R (.within bindings body next)
  | bind {name : String} {v : Value} {next : Action} (hbind : (Run.bindHere name v).Conserves R)
      (hnext : Conserves R next) : Conserves R (.bind name v next)
  | recover {body : Action} {handler : Failure → Action} {next : Value → Action}
      (hbody : Conserves R body) (hhandler : ∀ f, Conserves R (handler f))
      (hnext : ∀ v, Conserves R (next v)) : Conserves R (.recover body handler next)
  | settle {vs : List Value} {next : List Value → Action} (hnext : ∀ vs, Conserves R (next vs)) :
      Conserves R (.settle vs next)
  | view {next : List (String × Value) → Action} (hnext : ∀ names, Conserves R (next names)) :
      Conserves R (.view next)
  | running {next : List String → Action} (hnext : ∀ names, Conserves R (next names)) :
      Conserves R (.running next)
  | effect {computation : Effect Value} {next : Value → Action}
      (hcomputation : computation.Conserves R) (hnext : ∀ v, Conserves R (next v)) :
      Conserves R (.effect computation next)
  | note {v : Value} {next : Action} (hnext : Conserves R next) : Conserves R (.note v next)
  | trace {line : String} {next : Action} (hnext : Conserves R next) :
      Conserves R (.trace line next)

namespace Setting

/-- Whether a host and primitives keep to a relation. Members count only if they are exposed, as the
ones are that the host resolves. -/
structure Conserves (env : Setting) (R : Memory → Memory → Prop) (Exposed : String → Prop) :
    Prop where
  resolveType : ∀ path, (env.host.resolveType path).Conserves R
  resolveMember : ∀ target name types, (env.host.resolveMember target name types).Conserves R
  exposed : ∀ target name types s m,
    (env.host.resolveMember target name types s).1 = .ok (some m) → Exposed m.name
  call : ∀ m, Exposed m.name → ∀ arguments, (env.host.call m arguments).Conserves R
  primitives : ∀ name p, env.primitives.find? name = some p → ∀ e, (p e).Conserves R

/-- Whether evaluation with some fuel keeps to a relation. -/
structure ConservesWith (env : Setting) (R : Memory → Memory → Prop) (fuel : Nat) : Prop where
  dispatch : ∀ x, (env.dispatch fuel x).Conserves R
  invoke : ∀ e, (env.invoke fuel e).Conserves R
  perform : ∀ a, a.Conserves R → (env.perform fuel a).Conserves R
  invokeNode : ∀ x, (env.invokeNode fuel x).Conserves R

section Step

variable {env : Setting} {Exposed : String → Prop} {fuel : Nat}

theorem exposed_of_resolveMember (henv : env.Conserves R Exposed) {target : Value} {name : String}
    {types : Option (List ValueType)} {m : Machine} {member : Member}
    (h : (env.resolveMember target name types m).1 = .ok (some member)) : Exposed member.name := by
  have hhost := henv.exposed (m.store.settle target) name types m.store member
  change Outcome.ofExcept (env.host.resolveMember (m.store.settle target) name types m.store).1 = _
    at h
  cases hfound : (env.host.resolveMember (m.store.settle target) name types m.store).1 with
  | ok found =>
      rw [hfound] at h
      cases h
      exact hhost hfound
  | error f =>
      rw [hfound] at h
      cases h

variable (hR : Memory.Conserved R) (henv : env.Conserves R Exposed)
include hR henv

theorem conserves_callMember (frame : Frame) (member : Member) (h : Exposed member.name)
    (arguments : List Value) : (env.callMember frame member arguments).Conserves R := by
  refine Run.Conserves.framed (.ofEffect ?_) frame
  refine .read_bind fun s => ?_
  have hcall := henv.call { member with target := s.settle member.target } h
  exact .bind hR.toPreordered (hcall _) hR.adopt

theorem conserves_member (target : Value) (name : String) (types : Option (List ValueType))
    (failure : Failure) (line : String) (frame : Frame) (arguments : List Value) :
    Run.Conserves R (do
      match ← env.resolveMember target name types with
      | none => Run.fail failure
      | some m =>
          Run.traceLine line
          env.callMember frame m arguments) := by
  have hresolved : (env.resolveMember target name types).Conserves R :=
    .ofEffect <| .read_bind fun _ => henv.resolveMember _ name types
  refine Run.Keeps.bind_of_answer (Run.Conserves.preordered hR.toPreordered) hresolved
    fun m found hfound => ?_
  cases found with
  | none => exact hR.refl _
  | some member =>
      have hexposed := exposed_of_resolveMember henv hfound
      exact Run.Conserves.bind hR.toPreordered (.traceLine hR.toPreordered line)
        (fun _ => conserves_callMember hR henv frame member hexposed arguments) _

theorem conserves_invokeStatic {evaluate : Node → Run Value} (h : ∀ x, (evaluate x).Conserves R)
    (path : List String) (member : String) (e : Invocation) :
    (env.invokeStatic evaluate path member e).Conserves R := by
  have hpre := hR.toPreordered
  unfold invokeStatic
  refine .bind hpre (.ofEffect (henv.resolveType path)) fun found => ?_
  cases found with
  | none => exact .fail hpre _
  | some target =>
      refine .bind hpre (.mapAll hpre h e.parameters) fun arguments => ?_
      exact .bind hpre (.visit hpre _) fun _ => conserves_member hR henv _ _ _ _ _ _ _

theorem conserves_invokeInstance {evaluate : Node → Run Value} (h : ∀ x, (evaluate x).Conserves R)
    (member : String) (e : Invocation) : (env.invokeInstance evaluate member e).Conserves R := by
  have hpre := hR.toPreordered
  unfold invokeInstance
  cases e.parameters with
  | nil => exact .fail hpre _
  | cons x rest =>
      refine .bind hpre (h x) fun receiver => .bind hpre (.visit hpre _) fun _ => ?_
      split
      · exact .fail hpre _
      · refine .bind hpre (.mapAll hpre h rest) fun arguments => ?_
        exact .bind hpre (.visit hpre _) fun _ => conserves_member hR henv _ _ _ _ _ _ _

omit henv in
theorem conserves_dispatch_succ (h : env.ConservesWith R fuel) (x : Node) :
    (env.dispatch (fuel + 1) x).Conserves R := by
  have hpre := hR.toPreordered
  rw [dispatch.eq_def]
  refine .bind hpre (.visit hpre _) fun _ => ?_
  cases x with
  | error message span => exact .fail hpre _
  | literal value span => exact .pure hpre _
  | identifier name span => exact fun _ => hpre.refl _
  | list xs span => exact .bind hpre (.mapAll hpre h.dispatch xs) fun vs => .ofEffect (hR.adopt _)
  | quote inner span => exact .pure hpre _
  | invocation head parameters span => exact h.invoke _
  | instanceMember member span => exact .fail hpre _
  | staticMember path member span => exact .fail hpre _

theorem conserves_invoke_succ (h : env.ConservesWith R fuel) (e : Invocation) :
    (env.invoke (fuel + 1) e).Conserves R := by
  have hpre := hR.toPreordered
  rw [invoke]
  cases e.head with
  | identifier name span =>
      dsimp only
      cases hp : env.primitives.find? name with
      | none => exact .fail hpre _
      | some p =>
          have hperform := h.perform (p e) (henv.primitives name p hp e)
          exact .bind hpre (.traceLine hpre _) fun _ => hperform.framed _
  | staticMember path member span => exact conserves_invokeStatic hR henv h.dispatch path member e
  | instanceMember member span => exact conserves_invokeInstance hR henv h.dispatch member e
  | _ => exact .fail hpre _

omit henv in
theorem conserves_invokeNode_succ (h : env.ConservesWith R fuel) (x : Node) :
    (env.invokeNode (fuel + 1) x).Conserves R := by
  cases x with
  | invocation head parameters span =>
      rw [invokeNode]
      exact h.invoke _
  | _ => exact .fail hR.toPreordered _

omit henv in
theorem conserves_perform_succ (h : env.ConservesWith R fuel) {a : Action} (ha : a.Conserves R) :
    (env.perform (fuel + 1) a).Conserves R := by
  have hpre := hR.toPreordered
  -- A value on its way to a primitive is brought up to date, which changes nothing else.
  have hnext : ∀ {r : Run Value} {next : Value → Action}, r.Conserves R →
      (∀ v, (next v).Conserves R) → Run.Conserves R (do
        env.perform fuel (next (← Run.ofEffect (Effect.settle (← r))))) := fun hr hnext =>
    .bind hpre hr fun v =>
      .bind hpre (.ofEffect (.settle hpre v)) fun v => h.perform _ (hnext v)
  rw [perform.eq_def]
  cases ha with
  | done v => exact .ofEffect (hR.adopt v)
  | fail f => exact .fail hpre f
  | eval hv => exact hnext ((h.dispatch _).evaluation none) hv
  | evalIn hscope hv =>
      exact .bind hpre hscope fun scope => hnext ((h.dispatch _).evaluation scope) hv
  | invoke hv => exact hnext (h.invokeNode _) hv
  | within hblock hbody hv =>
      exact .bind hpre (hblock _ (h.perform _ hbody)) fun v => h.perform _ (hv v)
  | bind hbind ha => exact .bind hpre hbind fun _ => h.perform _ ha
  | recover hbody hhandler hv =>
      refine .bind hpre (Run.Keeps.recover (Run.Conserves.preordered hpre) (h.perform _ hbody) ?_)
        fun v => h.perform _ (hv v)
      exact fun f => h.perform _ (hhandler f)
  | settle hvs =>
      exact .bind hpre (.ofEffect (.of_unchanged hpre fun _ => rfl)) fun s => h.perform _ (hvs _)
  | view hnames => exact .bind hpre (fun _ => hpre.refl _) fun m => h.perform _ (hnames _)
  | running hnames => exact .bind hpre (fun _ => hpre.refl _) fun m => h.perform _ (hnames _)
  | effect hcomputation hv =>
      refine .bind hpre (.ofEffect hcomputation) fun v => ?_
      exact .bind hpre (.ofEffect (hR.adopt v)) fun v => h.perform _ (hv v)
  | note ha => exact .bind hpre (.ofEffect (hR.note _)) fun _ => h.perform _ ha
  | trace ha => exact .bind hpre (.traceLine hpre _) fun _ => h.perform _ ha

theorem conservesWith (fuel : Nat) : env.ConservesWith R fuel := by
  induction fuel with
  | zero =>
      have hunfinished : (Run.unfinished : Run Value).Conserves R := fun _ => hR.refl _
      exact ⟨fun _ => hunfinished, fun _ => hunfinished, fun _ _ => hunfinished,
        fun _ => hunfinished⟩
  | succ fuel ih =>
      constructor
      · exact conserves_dispatch_succ hR ih
      · exact conserves_invoke_succ hR henv ih
      · exact fun _ => conserves_perform_succ hR ih
      · exact conserves_invokeNode_succ hR ih

end Step

end Setting

namespace Runner

variable {r : Runner} {Exposed : String → Prop}

theorem conserves_evalLast {env : Setting} (hR : Memory.Conserved R)
    (henv : env.Conserves R Exposed) (xs : List Node) (last : Value) :
    (evalLast env xs last).Conserves R := by
  induction xs generalizing last with
  | nil => exact .ofEffect (.settle hR.toPreordered last)
  | cons x rest ih =>
      have hdispatch := (Setting.conservesWith hR henv Setting.ample).dispatch x
      exact .bind hR.toPreordered (hdispatch.evaluation none) ih

/-- What a script does to the memory, whether it can be read or not and however it ends. -/
theorem conserves_handleScript [HostClasses] (hR : Memory.Conserved R)
    (henv : r.setting.Conserves R Exposed)
    (source : String) : R r.machine.memory (r.handleScript source).2.machine.memory := by
  unfold handleScript
  cases parseMany source with
  | error e => exact hR.refl _
  | ok nodes =>
      have hlast := conserves_evalLast hR henv nodes .null { r.machine with frames := [] }
      dsimp only
      generalize evalLast r.setting nodes .null { r.machine with frames := [] } = result at hlast
      cases settled result.1 with
      | ok v => exact hlast
      | error f =>
          dsimp only
          cases result.2.failureReport? source f with
          | error f' => exact hlast
          | ok report => exact hR.trans hlast (Run.Conserves.traceLine hR.toPreordered _ result.2)

end Runner

end HostedLisp
