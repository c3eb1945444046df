import HostedLisp.Host.Catalogue
import HostedLisp.Proofs.Evaluation.Drift

namespace HostedLisp

namespace Drift

/-- Whether two actions ask for the same, with values that have drifted, and go on alike. They may
note and trace different things. -/
inductive Actions (δ : Drift) : Action → Action → Prop where
  | done (v : Value) : Actions δ (.done v) (.done (δ.value v))
  | fail (x : Failure) : Actions δ (.fail x) (.fail x)
  | eval (x : Node) {next next' : Value → Action}
      (h : ∀ v, Actions δ (next v) (next' (δ.value v))) :
      Actions δ (.eval x next) (.eval x next')
  | evalIn (r : ScopeRef) (x : Node) {next next' : Value → Action}
      (h : ∀ v, Actions δ (next v) (next' (δ.value v))) :
      Actions δ (.evalIn r x next) (.evalIn (r.rename δ.shifted) x next')
  | invoke (x : Node) {next next' : Value → Action}
      (h : ∀ v, Actions δ (next v) (next' (δ.value v))) :
      Actions δ (.invoke x next) (.invoke x next')
  | within (bindings : List (String × Value)) {body body' : Action} {next next' : Value → Action}
      (hbody : Actions δ body body') (h : ∀ v, Actions δ (next v) (next' (δ.value v))) :
      Actions δ (.within bindings body next) (.within (δ.names bindings) body' next')
  | bind (name : String) (v : Value) {next next' : Action} (h : Actions δ next next') :
      Actions δ (.bind name v next) (.bind name (δ.value v) next')
  | recover {body body' : Action} {handler handler' : Failure → Action}
      {next next' : Value → Action} (hbody : Actions δ body body')
      (hhandler : ∀ x, Actions δ (handler x) (handler' x))
      (h : ∀ v, Actions δ (next v) (next' (δ.value v))) :
      Actions δ (.recover body handler next) (.recover body' handler' next')
  | settle (vs : List Value) {next next' : List Value → Action}
      (h : ∀ vs, Actions δ (next vs) (next' (vs.map δ.value))) :
      Actions δ (.settle vs next) (.settle (vs.map δ.value) next')
  | view {next next' : List (String × Value) → Action}
      (h : ∀ flat, Actions δ (next flat) (next' (δ.names flat))) :
      Actions δ (.view next) (.view next')
  | running {next next' : List String → Action}
      (h : ∀ names, Actions δ (next names) (next' names)) :
      Actions δ (.running next) (.running next')
  | effect {computation computation' : Effect Value} {next next' : Value → Action}
      (hcomputation : δ.Effects δ.value computation computation')
      (h : ∀ v, Actions δ (next v) (next' (δ.value v))) :
      Actions δ (.effect computation next) (.effect computation' next')
  | note (v v' : Value) {next next' : Action} (h : Actions δ next next') :
      Actions δ (.note v next) (.note v' next')
  | trace (line line' : String) {next next' : Action} (h : Actions δ next next') :
      Actions δ (.trace line next) (.trace line' next')

/-- Whether a primitive does the same after the drift. -/
def Admits (δ : Drift) (p : Primitive) : Prop := ∀ e, δ.Actions (p e) (p e)

/-- Whether a host answers the same after the drift. It may record events, but not depend on them,
nor on how the identities given out lately are chosen. -/
structure AdmitsHost (δ : Drift) (host : Host) : Prop where
  resolveType : ∀ path,
    δ.Effects (Option.map δ.value) (host.resolveType path) (host.resolveType path)
  resolveMember : ∀ target name types,
    δ.Effects (Option.map (Member.rename δ.shifted)) (host.resolveMember target name types)
      (host.resolveMember (δ.value target) name types)
  call : ∀ member arguments,
    δ.Effects δ.value (host.call member arguments)
      (host.call (member.rename δ.shifted) (arguments.map δ.value))

/-- Whether a catalogue answers the same after a drift. -/
structure AdmitsCatalogue (δ : Drift) (c : Catalogue) : Prop where
  attribute? : ∀ s s' v name, δ.Stores s s' →
    c.attribute? s' (δ.value v) name = c.attribute? s v name
  read : ∀ v name, δ.Effects δ.value (c.read v name) (c.read (δ.value v) name)
  write : ∀ v name w, δ.Effects id (c.write v name w) (c.write (δ.value v) name (δ.value w))
  call : ∀ v name arguments,
    δ.Effects δ.value (c.call v name arguments) (c.call (δ.value v) name (arguments.map δ.value))
  module? : ∀ path, (c.module? path).map δ.value = c.module? path

end Drift

namespace Setting

/-- Whether the host and the primitives do the same after a drift. -/
structure Admits (env : Setting) (δ : Drift) : Prop where
  host : δ.AdmitsHost env.host
  primitives : ∀ name p, env.primitives.find? name = some p → δ.Admits p

/-- Whether evaluation with some fuel does the same after a drift. -/
structure Parallel (env : Setting) (δ : Drift) (fuel : Nat) : Prop where
  dispatch : ∀ x, δ.Runs δ.value (env.dispatch fuel x) (env.dispatch fuel x)
  invoke : ∀ e, δ.Runs δ.value (env.invoke fuel e) (env.invoke fuel e)
  perform : ∀ a a', δ.Actions a a' → δ.Runs δ.value (env.perform fuel a) (env.perform fuel a')
  invokeNode : ∀ x, δ.Runs δ.value (env.invokeNode fuel x) (env.invokeNode fuel x)

section Step

variable {env : Setting} {δ : Drift} {fuel : Nat}

open Drift

theorem runs_resolveMember (henv : env.Admits δ) (target : Value) (name : String)
    (types : Option (List ValueType)) :
    δ.Runs (Option.map (Member.rename δ.shifted)) (env.resolveMember target name types)
      (env.resolveMember (δ.value target) name types) := by
  refine .ofEffect (.read_bind fun s s' h => ?_)
  rw [h.settle_eq]
  exact henv.host.resolveMember _ name types

theorem runs_callMember (henv : env.Admits δ) (frame : Frame) (member : Member)
    (arguments : List Value) :
    δ.Runs δ.value (env.callMember frame member arguments)
      (env.callMember (frame.rename δ.shifted) (member.rename δ.shifted)
        (arguments.map δ.value)) := by
  refine .framed (.ofEffect (.read_bind fun s s' h => ?_)) frame
  have hcall := henv.host.call { member with target := s.settle member.target }
    (s.settleAll arguments)
  rw [← h.settleAll_eq, Member.rename, ← Drift.value, ← h.settle_eq] at hcall
  exact hcall.bind fun v => .adopt v

theorem types_drift (vs : List Value) :
    (vs.map δ.value).map Value.type = vs.map Value.type := by
  rw [List.map_map]
  exact List.map_congr_left fun v _ => Value.type_rename δ.shifted v

theorem runs_invokeStatic (henv : env.Admits δ) {evaluate : Node → Run Value}
    (h : ∀ x, δ.Runs δ.value (evaluate x) (evaluate x)) (path : List String) (member : String)
    (e : Invocation) :
    δ.Runs δ.value (env.invokeStatic evaluate path member e)
      (env.invokeStatic evaluate path member e) := by
  unfold invokeStatic
  refine (Runs.ofEffect (henv.host.resolveType path)).bind fun found => ?_
  cases found with
  | none => exact .fail _
  | some target =>
      refine (Runs.mapAll h e.parameters).bind fun arguments => (Runs.visit _).bind fun _ => ?_
      refine (runs_resolveMember henv target member none).bind fun found => ?_
      cases found with
      | none => exact .fail _
      | some m =>
          exact (Runs.traceLine _ _).bind fun _ =>
            runs_callMember henv ⟨e.head.headName, arguments, e.node⟩ m arguments

theorem runs_invokeInstance (henv : env.Admits δ) {evaluate : Node → Run Value}
    (h : ∀ x, δ.Runs δ.value (evaluate x) (evaluate x)) (member : String) (e : Invocation) :
    δ.Runs δ.value (env.invokeInstance evaluate member e)
      (env.invokeInstance evaluate member e) := by
  unfold invokeInstance
  cases e.parameters with
  | nil => exact .fail _
  | cons x rest =>
      refine (h x).bind fun receiver => (Runs.visit _).bind fun _ => ?_
      dsimp only
      rw [Drift.value, Value.isNull_rename]
      split
      · exact .fail _
      · refine (Runs.mapAll h rest).bind fun arguments => (Runs.visit _).bind fun _ => ?_
        rw [types_drift]
        refine (runs_resolveMember henv receiver member _).bind fun found => ?_
        cases found with
        | none =>
            rw [Value.type_rename]
            exact .fail _
        | some m =>
            exact (Runs.traceLine _ _).bind fun _ =>
              runs_callMember henv ⟨e.head.headName, receiver :: arguments, e.node⟩ m _

theorem runs_dispatch_succ (h : env.Parallel δ fuel) (x : Node) :
    δ.Runs δ.value (env.dispatch (fuel + 1) x) (env.dispatch (fuel + 1) x) := by
  rw [dispatch.eq_def]
  refine (Runs.visit (.code x)).bind fun _ => ?_
  cases x with
  | error message span => exact .fail _
  | literal v span =>
      have hv : δ.value (Value.ofLiteral v) = Value.ofLiteral v := Value.rename_ofLiteral _ v
      have hpure := Runs.pure (δ := δ) (f := δ.value) (Value.ofLiteral v)
      rwa [hv] at hpure
  | identifier name span => exact .lookup name
  | list xs span =>
      refine (Runs.mapAll h.dispatch xs).bind fun vs => ?_
      have hlist := Runs.ofEffect (Effects.adopt (δ := δ) (.listOf vs))
      rwa [Drift.value, Value.rename_listOf, Value.renameAll_eq_map] at hlist
  | quote inner span => exact .pure _
  | invocation head parameters span => exact h.invoke _
  | instanceMember member span => exact .fail _
  | staticMember path member span => exact .fail _

theorem runs_invoke_succ (henv : env.Admits δ) (h : env.Parallel δ fuel) (e : Invocation) :
    δ.Runs δ.value (env.invoke (fuel + 1) e) (env.invoke (fuel + 1) e) := by
  rw [invoke]
  split
  · rename_i name span _
    cases hp : env.primitives.find? name with
    | none => exact .fail _
    | some p =>
        have hcall := (h.perform _ _ (henv.primitives name p hp e)).framed
          ⟨name, e.parameters.map Value.code, e.node⟩
        have hcode : (e.parameters.map Value.code).map (Value.rename δ.shifted) =
            e.parameters.map Value.code := by
          rw [List.map_map]
          rfl
        rw [Frame.rename, hcode] at hcall
        exact (Runs.traceLine _ _).bind fun _ => hcall
  · exact runs_invokeStatic henv h.dispatch _ _ e
  · exact runs_invokeInstance henv h.dispatch _ e
  · exact .fail _

theorem runs_invokeNode_succ (h : env.Parallel δ fuel) (x : Node) :
    δ.Runs δ.value (env.invokeNode (fuel + 1) x) (env.invokeNode (fuel + 1) x) := by
  cases x with
  | invocation head parameters span =>
      rw [invokeNode]
      exact h.invoke _
  | _ => exact .fail _

theorem runs_settled {r r' : Run Value} {k k' : Value → Run Value} (h : δ.Runs δ.value r r')
    (hk : ∀ v, δ.Runs δ.value (k v) (k' (δ.value v))) :
    δ.Runs δ.value (do k (← Run.ofEffect (Effect.settle (← r))))
      (do k' (← Run.ofEffect (Effect.settle (← r')))) :=
  h.bind fun v => (Runs.ofEffect (.settle v)).bind hk

theorem runs_perform_succ (h : env.Parallel δ fuel) {a a' : Action} (ha : δ.Actions a a') :
    δ.Runs δ.value (env.perform (fuel + 1) a) (env.perform (fuel + 1) a') := by
  rw [perform.eq_def, perform.eq_def]
  cases ha with
  | done v => exact .ofEffect (.adopt v)
  | fail x => exact .fail x
  | eval x hnext =>
      exact runs_settled ((h.dispatch x).evaluation none) fun v => h.perform _ _ (hnext v)
  | evalIn r x hnext =>
      refine (Runs.scopeOf r).bind fun scope => ?_
      exact runs_settled ((h.dispatch x).evaluation scope) fun v => h.perform _ _ (hnext v)
  | invoke x hnext => exact runs_settled (h.invokeNode x) fun v => h.perform _ _ (hnext v)
  | within bindings hbody hnext =>
      refine Runs.bind (Runs.inChild ?_) fun v => h.perform _ _ (hnext v)
      exact Runs.bind (Runs.bindAll Runs.bindHere bindings) fun _ => h.perform _ _ hbody
  | bind name v hnext => exact (Runs.bindHere name v).bind fun _ => h.perform _ _ hnext
  | recover hbody hhandler hnext =>
      have hrecover := (h.perform _ _ hbody).recover fun x => h.perform _ _ (hhandler x)
      exact hrecover.bind fun v => h.perform _ _ (hnext v)
  | settle vs hnext =>
      refine Runs.readStore_bind fun s s' hs => ?_
      rw [hs.settleAll_eq]
      exact h.perform _ _ (hnext _)
  | view hnext =>
      refine Runs.read_bind fun m m' hm => ?_
      have hflat : (m'.scopes.chain m'.scope).flatten.map (fun e => (e.1, m'.store.settle e.2)) =
          δ.names ((m.scopes.chain m.scope).flatten.map fun e => (e.1, m.store.settle e.2)) := by
        rw [hm.scope_eq, hm.scopes.chain_eq, flatten_rename, names, names, List.map_map,
          List.map_map]
        refine List.map_congr_left fun e _ => ?_
        exact congrArg (Prod.mk e.1) (hm.store.settle_eq e.2)
      dsimp only
      rw [hflat]
      exact h.perform _ _ (hnext _)
  | running hnext =>
      refine Runs.read_bind fun m m' hm => ?_
      have hnames : m'.frames.map Frame.name = m.frames.map Frame.name := by
        rw [hm.frames_eq, List.map_map]
        rfl
      rw [hnames]
      exact h.perform _ _ (hnext _)
  | effect hcomputation hnext =>
      refine (Runs.ofEffect hcomputation).bind fun v => (Runs.ofEffect (.adopt v)).bind fun v => ?_
      exact h.perform _ _ (hnext v)
  | note v v' hnext =>
      exact (Runs.ofEffect (.record _ _)).bind fun _ => h.perform _ _ hnext
  | trace line line' hnext => exact (Runs.traceLine _ _).bind fun _ => h.perform _ _ hnext

theorem parallel (henv : env.Admits δ) (fuel : Nat) : env.Parallel δ fuel := by
  induction fuel with
  | zero =>
      constructor
      · exact fun _ => .unfinished
      · exact fun _ => .unfinished
      · exact fun _ _ _ => .unfinished
      · exact fun _ => .unfinished
  | succ fuel ih =>
      constructor
      · exact runs_dispatch_succ ih
      · exact runs_invoke_succ henv ih
      · exact fun _ _ => runs_perform_succ ih
      · exact runs_invokeNode_succ ih

theorem runs_eval (henv : env.Admits δ) (x : Node) :
    δ.Runs δ.value (env.eval x none) (env.eval x none) :=
  ((parallel henv ample).dispatch x).evaluation none

end Step

end Setting

end HostedLisp
