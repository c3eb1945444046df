import HostedLisp.Proofs.Evaluation.Restoration
import HostedLisp.Proofs.Evaluation.Termination
import HostedLisp.Proofs.Scope.Resolution
import HostedLisp.Proofs.Value.Legible

namespace HostedLisp

/-- Whether a frame is that of a call of a primitive, as the head of its invocation shows. -/
def Frame.isOfPrimitive (f : Frame) : Bool :=
  match f.callSite with
  | .invocation (.identifier ..) .. => true
  | _ => false

/-- Whether a frame, if it is that of a call of a primitive, shows the invocation as it stands, and
a text can spell it. -/
def Frame.Legible (f : Frame) : Prop :=
  ∀ name span parameters whole,
    f.callSite = .invocation (.identifier name span) parameters whole →
      f.callSite.WellFormed ∧ f.name = name ∧ f.arguments = parameters.map Value.code

theorem Frame.Legible.exists_eq {f : Frame} (hf : f.Legible) (h : f.isOfPrimitive = true) :
    ∃ name span parameters whole,
      f = ⟨name, parameters.map Value.code, .invocation (.identifier name span) parameters whole⟩ ∧
        f.callSite.WellFormed := by
  obtain ⟨name', arguments, site⟩ := f
  unfold isOfPrimitive at h
  split at h
  · rename_i name span parameters whole hsite
    obtain ⟨hsound, rfl, rfl⟩ := hf name span parameters whole hsite
    exact ⟨name', span, parameters, whole, congrArg (Frame.mk _ _) hsite, hsound⟩
  · cases h

/-- Whether a text can spell all code that is bound in a scope. -/
def Scopes.Legible (s : Scopes) : Prop := ∀ sc ∈ s.all, ∀ b ∈ sc.bindings, b.value.Legible

structure Machine.Legible (m : Machine) : Prop where
  store : m.store.Legible
  scopes : m.scopes.Legible
  frames : ∀ f ∈ m.frames, f.Legible

/-- Whether a computation keeps a store legible, and answers with what has a property. -/
def Effect.Upholds {α : Type} (P : α → Prop) (e : Effect α) : Prop :=
  ∀ s, s.Legible → (e s).2.Legible ∧ ∀ a, (e s).1 = .ok a → P a

/-- Whether a computation keeps the state legible, and answers with what has a property. -/
def Run.Upholds {α : Type} (P : α → Prop) (r : Run α) : Prop :=
  ∀ m, m.Legible → (r m).2.Legible ∧ ∀ a, (r m).1 = .ok a → P a

namespace Scopes

variable {s : Scopes} {i : Nat} {name : String}

theorem Legible.lookup (hs : s.Legible) {b : Binding} (h : s.lookup i name = .ok b) :
    b.value.Legible := by
  obtain ⟨sc, hsc, hb⟩ := mem_of_lookup h
  exact hs sc hsc b hb

theorem Legible.add (hs : s.Legible) (parent : Option Nat) : (s.add parent).2.Legible :=
  List.forall_mem_append.mpr ⟨hs, List.forall_mem_singleton.mpr (List.forall_mem_nil _)⟩

theorem Legible.insert (hs : s.Legible) {b : Binding} (hb : b.value.Legible) :
    (s.insert i b).Legible := by
  intro sc hsc c hc
  rcases mem_insert hsc hc with rfl | ⟨sc', hsc', hold⟩
  · exact hb
  · exact hs sc' hsc' c hold

theorem Legible.flatten (hs : s.Legible) (i : Nat) :
    ∀ e ∈ (s.chain i).flatten, e.2.Legible := by
  refine Chain.forall_mem_flatten fun bs hbs b hb => ?_
  obtain ⟨j, -, rfl⟩ := List.mem_map.mp hbs
  obtain ⟨sc, hsc, hmem⟩ := mem_of_mem_own hb
  exact hs sc hsc b hmem

end Scopes

namespace Effect.Upholds

variable {α β : Type} {P : α → Prop} {R : β → Prop} {e : Effect α}

theorem pure {a : α} (h : P a) : Upholds P (Effect.pure a) :=
  fun _ hs => ⟨hs, fun _ ha => by cases ha; exact h⟩

theorem fail (f : Failure) : Upholds P (Effect.fail f) :=
  fun _ hs => ⟨hs, fun _ ha => nomatch ha⟩

theorem ofExcept {r : Except Failure α} (h : Yields P r) : Upholds P (Effect.ofExcept r) := by
  cases r with
  | ok a => exact pure (h a rfl)
  | error f => exact fail f

theorem read : Upholds Store.Legible Effect.read :=
  fun _ hs => ⟨hs, fun _ ha => by cases ha; exact hs⟩

theorem modify {f : Store → Store} (h : ∀ s, s.Legible → (f s).Legible) :
    Upholds (fun _ => True) (Effect.modify f) :=
  fun s hs => ⟨h s hs, fun _ _ => trivial⟩

theorem record (event : Event) : Upholds (fun _ => True) (Effect.modify fun s => s.record event) :=
  modify fun _ hs => hs

theorem settle {v : Value} (h : v.Legible) : Upholds Value.Legible (Effect.settle v) :=
  fun _ hs => ⟨hs, fun _ hw => by cases hw; exact hs.settle h⟩

theorem adopt {v : Value} (h : v.Legible) : Upholds Value.Legible (Effect.adopt v) := by
  refine fun s hs => ⟨hs, fun w hw => ?_⟩
  cases hw
  intro x hx
  exact h x (v.nodes_place s.nextIdentity ▸ hx)

theorem bind {k : α → Effect β} (h : Upholds P e) (hk : ∀ a, P a → Upholds R (k a)) :
    Upholds R (e >>= k) := by
  intro s hs
  obtain ⟨hstore, hvalue⟩ := h s hs
  change (Effect.bind e k s).2.Legible ∧ ∀ b, (Effect.bind e k s).1 = .ok b → R b
  unfold Effect.bind
  cases he : e s with
  | mk result s' =>
      rw [he] at hstore hvalue
      cases result with
      | ok a => exact hk a (hvalue a rfl) s' hstore
      | error f => exact ⟨hstore, fun _ hb => nomatch hb⟩

end Effect.Upholds

namespace Run.Upholds

variable {α β : Type} {P : α → Prop} {R : β → Prop} {r : Run α}

theorem pure {a : α} (h : P a) : Upholds P (Run.pure a) :=
  fun _ hm => ⟨hm, fun _ ha => by cases ha; exact h⟩

theorem fail (f : Failure) : Upholds P (Run.fail f) := fun _ hm => ⟨hm, fun _ ha => nomatch ha⟩

theorem unfinished : Upholds P Run.unfinished := fun _ hm => ⟨hm, fun _ ha => nomatch ha⟩

theorem read : Upholds Machine.Legible Run.read :=
  fun _ hm => ⟨hm, fun _ ha => by cases ha; exact hm⟩

theorem visit (v : Value) : Upholds (fun _ => True) (Run.visit v) :=
  fun _ hm => ⟨⟨hm.store, hm.scopes, hm.frames⟩, fun _ _ => trivial⟩

theorem traceLine (line : String) : Upholds (fun _ => True) (Run.traceLine line) := by
  refine fun m hm => ⟨?_, fun _ _ => trivial⟩
  unfold Run.traceLine Run.modify
  dsimp only
  split
  · exact ⟨hm.store, hm.scopes, hm.frames⟩
  · exact hm

theorem ofEffect {e : Effect α} (h : e.Upholds P) : Upholds P (Run.ofEffect e) := by
  intro m hm
  obtain ⟨hstore, hvalue⟩ := h m.store hm.store
  refine ⟨⟨hstore, hm.scopes, hm.frames⟩, fun a ha => hvalue a ?_⟩
  change Outcome.ofExcept (e m.store).1 = .ok a at ha
  cases he : (e m.store).1 with
  | ok b =>
      rw [he] at ha
      cases ha
      rfl
  | error f =>
      rw [he] at ha
      cases ha

theorem lookup (name : String) : Upholds Value.Legible (Run.lookup name) := by
  refine fun m hm => ⟨hm, fun v hv => ?_⟩
  unfold Run.lookup at hv
  cases hlookup : m.scopes.lookup m.scope name with
  | error f =>
      rw [hlookup] at hv
      cases hv
  | ok b =>
      rw [hlookup] at hv
      cases hv
      exact hm.scopes.lookup hlookup

theorem bind {k : α → Run β} (h : Upholds P r) (hk : ∀ a, P a → Upholds R (k a)) :
    Upholds R (r >>= k) := by
  intro m hm
  obtain ⟨hstate, hvalue⟩ := h m hm
  change (Run.bind r k m).2.Legible ∧ ∀ b, (Run.bind r k m).1 = .ok b → R b
  unfold Run.bind
  cases hr : r m with
  | mk o m' =>
      rw [hr] at hstate hvalue
      cases o with
      | ok a => exact hk a (hvalue a rfl) m' hstate
      | failed f => exact ⟨hstate, fun _ hb => nomatch hb⟩
      | unfinished => exact ⟨hstate, fun _ hb => nomatch hb⟩

theorem mapAll {γ : Type} {f : γ → Run α} {xs : List γ} (h : ∀ x ∈ xs, Upholds P (f x)) :
    Upholds (fun ys => ∀ y ∈ ys, P y) (Run.mapAll f xs) := by
  induction xs with
  | nil => exact pure (List.forall_mem_nil _)
  | cons x xs ih =>
      refine (h x List.mem_cons_self).bind fun y hy => ?_
      have hrest := ih fun z hz => h z (List.mem_cons_of_mem _ hz)
      exact hrest.bind fun ys hys => pure (List.forall_mem_cons.mpr ⟨hy, hys⟩)

theorem evaluation (h : Upholds P r) (scope : Option Nat) : Upholds P (Run.evaluation scope r) := by
  intro m hm
  have hframes : ∀ f ∈ (m.evaluating scope).frames, f.Legible := by
    unfold Machine.evaluating
    dsimp only
    split
    · exact List.forall_mem_nil _
    · exact hm.frames
  obtain ⟨hstate, hvalue⟩ := h (m.evaluating scope) ⟨hm.store, hm.scopes, hframes⟩
  rw [Run.evaluation_eq]
  exact ⟨⟨hstate.store, hstate.scopes, hstate.frames⟩, hvalue⟩

theorem framed (h : Upholds P r) {frame : Frame} (hframe : frame.Legible) :
    Upholds P (Run.framed frame r) := by
  intro m hm
  have hframes : ∀ f ∈ (m.calling frame).frames, f.Legible :=
    List.forall_mem_append.mpr ⟨fun f hf => hm.frames f (List.mem_of_mem_take hf),
      List.forall_mem_singleton.mpr hframe⟩
  obtain ⟨hstate, hvalue⟩ := h (m.calling frame) ⟨hm.store, hm.scopes, hframes⟩
  rw [Run.framed_eq]
  cases hr : r (m.calling frame) with
  | mk o m' =>
      rw [hr] at hstate hvalue
      cases o with
      | ok a =>
          exact ⟨⟨hstate.store, hstate.scopes,
            fun f hf => hstate.frames f (List.mem_of_mem_take hf)⟩, hvalue⟩
      | failed f => exact ⟨⟨hstate.store, hstate.scopes, hstate.frames⟩, hvalue⟩
      | unfinished => exact ⟨⟨hstate.store, hstate.scopes, hstate.frames⟩, hvalue⟩

theorem inChild (h : Upholds P r) : Upholds P (Run.inChild r) := by
  intro m hm
  obtain ⟨hstate, hvalue⟩ := h m.opening ⟨hm.store, hm.scopes.add _, hm.frames⟩
  exact ⟨⟨hstate.store, hstate.scopes, hstate.frames⟩, hvalue⟩

theorem recover {handler : Failure → Run α} (h : Upholds P r) (hh : ∀ f, Upholds P (handler f)) :
    Upholds P (Run.recover r handler) := by
  intro m hm
  obtain ⟨hstate, hvalue⟩ := h m hm
  unfold Run.recover
  cases hr : r m with
  | mk o m' =>
      rw [hr] at hstate hvalue
      cases o with
      | ok a => exact ⟨hstate, hvalue⟩
      | unfinished => exact ⟨hstate, hvalue⟩
      | failed f =>
          dsimp only
          split
          · exact hh f m' hstate
          · exact ⟨hstate, hvalue⟩

theorem bindAt {v : Value} (hv : v.Legible) (i : Nat) (name : String) :
    Upholds (fun _ => True) (Run.bindAt i name v) := by
  refine fun m hm => ⟨?_, fun _ _ => trivial⟩
  unfold Run.bindAt Scopes.bindText
  cases hb : Binding.ofText? name v with
  | error f => exact hm
  | ok b =>
      have hvalue : b.value.Legible := by
        rw [Binding.value_of_ofText? hb]
        exact hv
      exact ⟨hm.store, hm.scopes.insert hvalue, hm.frames⟩

theorem bindHere {v : Value} (hv : v.Legible) (name : String) :
    Upholds (fun _ => True) (Run.bindHere name v) :=
  fun m hm => bindAt hv m.scope name m hm

theorem addScope {bindings : List (String × Value)} (h : ∀ b ∈ bindings, b.2.Legible)
    (parent : Option Nat) : Upholds (fun _ => True) (Run.addScope parent bindings) := by
  intro m hm
  have hall := mapAll fun b hb => bindAt (h b hb) (m.scopes.add parent).1 b.1
  exact (hall.bind fun _ _ => pure trivial) { m with scopes := (m.scopes.add parent).2 }
    ⟨hm.store, hm.scopes.add parent, hm.frames⟩

end Run.Upholds

/-- Whether a text can spell all code that the scopes which a primitive names bind anew. -/
def ScopeRef.Legible : ScopeRef → Prop
  | absent => True
  | here => True
  | parent ref => ref.Legible
  | child ref bindings => ref.Legible ∧ ∀ b ∈ bindings, b.2.Legible

theorem Run.Upholds.scopeOf : (ref : ScopeRef) → ref.Legible →
    Run.Upholds (fun _ => True) (Run.scopeOf ref)
  | .absent, _ => pure trivial
  | .here, _ => fun _ hm => ⟨hm, fun _ _ => trivial⟩
  | .parent ref, h => by
      refine (scopeOf ref h).bind fun found _ => ?_
      cases found with
      | none => exact fail _
      | some i => exact fun _ hm => ⟨hm, fun _ _ => trivial⟩
  | .child ref bindings, h => by
      refine (scopeOf ref h.1).bind fun parent _ => ?_
      exact (addScope h.2 parent).bind fun i _ => pure trivial

/-- Whether an action asks for legible code only, goes on so after legible values, and ends with a
legible value or a failure. -/
inductive Action.Legible : Action → Prop where
  | done {v : Value} (h : v.Legible) : Legible (.done v)
  | fail (f : Failure) : Legible (.fail f)
  | eval {x : Node} {next : Value → Action} (hx : x.Legible)
      (h : ∀ v, v.Legible → Legible (next v)) : Legible (.eval x next)
  | evalIn {ref : ScopeRef} {x : Node} {next : Value → Action} (href : ref.Legible)
      (hx : x.Legible) (h : ∀ v, v.Legible → Legible (next v)) : Legible (.evalIn ref x next)
  | invoke {x : Node} {next : Value → Action} (hx : x.Legible)
      (h : ∀ v, v.Legible → Legible (next v)) : Legible (.invoke x next)
  | within {bindings : List (String × Value)} {body : Action} {next : Value → Action}
      (hbindings : ∀ b ∈ bindings, b.2.Legible) (hbody : Legible body)
      (h : ∀ v, v.Legible → Legible (next v)) : Legible (.within bindings body next)
  | bind {name : String} {v : Value} {next : Action} (hv : v.Legible) (h : Legible next) :
      Legible (.bind name v next)
  | recover {body : Action} {handler : Failure → Action} {next : Value → Action}
      (hbody : Legible body) (hhandler : ∀ f, Legible (handler f))
      (h : ∀ v, v.Legible → Legible (next v)) : Legible (.recover body handler next)
  | settle {vs : List Value} {next : List Value → Action} (hvs : ∀ v ∈ vs, v.Legible)
      (h : ∀ vs, (∀ v ∈ vs, v.Legible) → Legible (next vs)) : Legible (.settle vs next)
  | view {next : List (String × Value) → Action}
      (h : ∀ names, (∀ e ∈ names, e.2.Legible) → Legible (next names)) : Legible (.view next)
  | running {next : List String → Action} (h : ∀ names, Legible (next names)) :
      Legible (.running next)
  | effect {computation : Effect Value} {next : Value → Action}
      (hcomputation : computation.Upholds Value.Legible)
      (h : ∀ v, v.Legible → Legible (next v)) : Legible (.effect computation next)
  | note {v : Value} {next : Action} (h : Legible next) : Legible (.note v next)
  | trace {line : String} {next : Action} (h : Legible next) : Legible (.trace line next)

/-- Whether a primitive passes no code on but what a text can spell. -/
def Primitive.Legible (p : Primitive) : Prop := ∀ e : Invocation, e.node.WellFormed → (p e).Legible

/-- Whether a host passes no code on but what a text can spell. -/
structure Host.Legible (host : Host) : Prop where
  resolveType : ∀ path, (host.resolveType path).Upholds fun found => ∀ v ∈ found, v.Legible
  resolveMember : ∀ target name types, target.Legible →
    (host.resolveMember target name types).Upholds fun found => ∀ m ∈ found, m.target.Legible
  call : ∀ member arguments, member.target.Legible → (∀ v ∈ arguments, v.Legible) →
    (host.call member arguments).Upholds Value.Legible

structure Setting.Legible (env : Setting) : Prop where
  host : env.host.Legible
  primitives : ∀ entry ∈ env.primitives, entry.2.Legible

namespace Setting

/-- Whether evaluation with some fuel passes no code on but what a text can spell. -/
structure Upholds (env : Setting) (fuel : Nat) : Prop where
  dispatch : ∀ x, x.Legible → Run.Upholds Value.Legible (env.dispatch fuel x)
  invoke : ∀ e : Invocation, e.node.WellFormed → Run.Upholds Value.Legible (env.invoke fuel e)
  perform : ∀ a, a.Legible → Run.Upholds Value.Legible (env.perform fuel a)
  invokeNode : ∀ x, x.Legible → Run.Upholds Value.Legible (env.invokeNode fuel x)

section Step

variable {env : Setting} {fuel : Nat}

theorem upholds_resolveMember (henv : env.Legible) {target : Value} (htarget : target.Legible)
    (name : String) (types : Option (List ValueType)) :
    Run.Upholds (fun found => ∀ m ∈ found, m.target.Legible)
      (env.resolveMember target name types) :=
  .ofEffect <| Effect.Upholds.read.bind fun _ hs =>
    henv.host.resolveMember _ name types (hs.settle htarget)

theorem upholds_callMember (henv : env.Legible) {frame : Frame} (hframe : frame.Legible)
    {member : Member} (hmember : member.target.Legible) {arguments : List Value}
    (harguments : ∀ v ∈ arguments, v.Legible) :
    Run.Upholds Value.Legible (env.callMember frame member arguments) := by
  refine Run.Upholds.framed (.ofEffect (Effect.Upholds.read.bind fun s hs => ?_)) hframe
  have hcall := henv.host.call { member with target := s.settle member.target }
    (s.settleAll arguments) (hs.settle hmember) (hs.settleAll harguments)
  exact hcall.bind fun v hv => .adopt hv

theorem legible_memberFrame {e : Invocation} (h : ∀ name span, e.head ≠ .identifier name span)
    (arguments : List Value) : (Frame.mk e.head.headName arguments e.node).Legible := by
  intro name span parameters whole hsite
  exact absurd (Node.invocation.inj hsite).1 (h name span)

theorem upholds_invokeStatic (henv : env.Legible) {evaluate : Node → Run Value} {e : Invocation}
    (h : ∀ x ∈ e.parameters, Run.Upholds Value.Legible (evaluate x))
    (hhead : ∀ name span, e.head ≠ .identifier name span) (path : List String) (member : String) :
    Run.Upholds Value.Legible (env.invokeStatic evaluate path member e) := by
  unfold invokeStatic
  refine (Run.Upholds.ofEffect (henv.host.resolveType path)).bind fun found hfound => ?_
  cases found with
  | none => exact .fail _
  | some target =>
      refine (Run.Upholds.mapAll h).bind fun arguments harguments => ?_
      refine (Run.Upholds.visit _).bind fun _ _ => ?_
      refine (upholds_resolveMember henv (hfound target rfl) member none).bind fun found hm => ?_
      cases found with
      | none => exact .fail _
      | some m =>
          refine (Run.Upholds.traceLine _).bind fun _ _ => ?_
          exact upholds_callMember henv (legible_memberFrame hhead _) (hm m rfl) harguments

theorem upholds_invokeInstance (henv : env.Legible) {evaluate : Node → Run Value} {e : Invocation}
    (h : ∀ x ∈ e.parameters, Run.Upholds Value.Legible (evaluate x))
    (hhead : ∀ name span, e.head ≠ .identifier name span) (member : String) :
    Run.Upholds Value.Legible (env.invokeInstance evaluate member e) := by
  unfold invokeInstance
  split
  · exact .fail _
  · rename_i x rest hparameters
    rw [hparameters] at h
    obtain ⟨hx, hrest⟩ := List.forall_mem_cons.mp h
    refine hx.bind fun receiver hreceiver => (Run.Upholds.visit _).bind fun _ _ => ?_
    split
    · exact .fail _
    · refine (Run.Upholds.mapAll hrest).bind fun arguments harguments => ?_
      refine (Run.Upholds.visit _).bind fun _ _ => ?_
      refine (upholds_resolveMember henv hreceiver member _).bind fun found hm => ?_
      cases found with
      | none => exact .fail _
      | some m =>
          refine (Run.Upholds.traceLine _).bind fun _ _ => ?_
          exact upholds_callMember henv (legible_memberFrame hhead _) (hm m rfl) harguments

theorem upholds_dispatch_succ (h : env.Upholds fuel) {x : Node} (hx : x.Legible) :
    Run.Upholds Value.Legible (env.dispatch (fuel + 1) x) := by
  rw [Setting.dispatch.eq_def]
  refine (Run.Upholds.visit _).bind fun _ _ => ?_
  cases x with
  | error message span => exact .fail _
  | literal value span => exact .pure (Value.legible_ofLiteral value)
  | identifier name span => exact .lookup name
  | list xs span =>
      have hitems := Run.Upholds.mapAll fun y hy => h.dispatch y (.inl (hx.items y hy))
      exact hitems.bind fun vs hvs => .ofEffect (.adopt (Value.legible_list_iff.mpr hvs))
  | quote inner span => exact .pure (Value.legible_code_iff.mpr hx)
  | invocation head parameters span => exact h.invoke ⟨head, parameters, span⟩ hx.invocation
  | instanceMember member span => exact .fail _
  | staticMember path member span => exact .fail _

theorem upholds_invoke_succ (henv : env.Legible) (h : env.Upholds fuel) {e : Invocation}
    (he : e.node.WellFormed) : Run.Upholds Value.Legible (env.invoke (fuel + 1) e) := by
  have hparameters : ∀ x ∈ e.parameters, Run.Upholds Value.Legible (env.dispatch fuel x) :=
    fun x hx => h.dispatch x (.inl (Node.allWellFormed_iff.mp he.2 x hx))
  rw [Setting.invoke]
  split
  · rename_i name span hhead
    split
    · exact .fail _
    · rename_i p hp
      have hframe : (Frame.mk name (e.parameters.map Value.code) e.node).Legible := by
        intro name' span' parameters whole hsite
        obtain ⟨hname, rfl, -⟩ := Node.invocation.inj hsite
        rw [hhead] at hname
        exact ⟨he, (Node.identifier.inj hname).1, rfl⟩
      obtain ⟨entry, hentry, rfl⟩ := Option.map_eq_some_iff.mp hp
      have hlegible := henv.primitives entry (List.mem_of_find?_eq_some hentry) e he
      exact (Run.Upholds.traceLine _).bind fun _ _ => (h.perform _ hlegible).framed hframe
  · rename_i path member span hhead
    exact upholds_invokeStatic henv hparameters (fun _ _ heq => by cases hhead.symm.trans heq) _ _
  · rename_i member span hhead
    exact upholds_invokeInstance henv hparameters (fun _ _ heq => by cases hhead.symm.trans heq) _
  · exact .fail _

theorem upholds_invokeNode_succ (h : env.Upholds fuel) {x : Node} (hx : x.Legible) :
    Run.Upholds Value.Legible (env.invokeNode (fuel + 1) x) := by
  cases x with
  | invocation head parameters span =>
      rw [invokeNode]
      exact h.invoke ⟨head, parameters, span⟩ hx.invocation
  | _ => exact .fail _

theorem upholds_settled {r : Run Value} {k : Value → Run Value} (h : r.Upholds Value.Legible)
    (hk : ∀ v, v.Legible → (k v).Upholds Value.Legible) :
    Run.Upholds Value.Legible (do k (← Run.ofEffect (Effect.settle (← r)))) :=
  h.bind fun _ hv => (Run.Upholds.ofEffect (.settle hv)).bind hk

theorem upholds_perform_succ (h : env.Upholds fuel) {a : Action} (ha : a.Legible) :
    Run.Upholds Value.Legible (env.perform (fuel + 1) a) := by
  rw [Setting.perform.eq_def]
  cases ha with
  | done hv => exact .ofEffect (.adopt hv)
  | fail f => exact .fail f
  | eval hx hnext =>
      exact upholds_settled ((h.dispatch _ hx).evaluation none) fun v hv => h.perform _ (hnext v hv)
  | evalIn href hx hnext =>
      refine (Run.Upholds.scopeOf _ href).bind fun scope _ => ?_
      exact upholds_settled ((h.dispatch _ hx).evaluation scope) fun v hv =>
        h.perform _ (hnext v hv)
  | invoke hx hnext =>
      exact upholds_settled (h.invokeNode _ hx) fun v hv => h.perform _ (hnext v hv)
  | within hbindings hbody hnext =>
      have hbound := Run.Upholds.mapAll fun b hb => .bindHere (hbindings b hb) b.1
      have hblock := hbound.bind fun _ _ => h.perform _ hbody
      exact hblock.inChild.bind fun v hv => h.perform _ (hnext v hv)
  | bind hv hnext => exact (Run.Upholds.bindHere hv _).bind fun _ _ => h.perform _ hnext
  | recover hbody hhandler hnext =>
      have hrecover := (h.perform _ hbody).recover fun f => h.perform _ (hhandler f)
      exact hrecover.bind fun v hv => h.perform _ (hnext v hv)
  | settle hvs hnext =>
      refine (Run.Upholds.ofEffect .read).bind fun s hs => ?_
      exact h.perform _ (hnext _ (hs.settleAll hvs))
  | view hnext =>
      refine Run.Upholds.read.bind fun m hm => h.perform _ (hnext _ fun e he => ?_)
      obtain ⟨e', he', rfl⟩ := List.mem_map.mp he
      exact hm.store.settle (hm.scopes.flatten m.scope e' he')
  | running hnext => exact Run.Upholds.read.bind fun m _ => h.perform _ (hnext _)
  | effect hcomputation hnext =>
      refine (Run.Upholds.ofEffect hcomputation).bind fun v hv => ?_
      exact (Run.Upholds.ofEffect (.adopt hv)).bind fun w hw => h.perform _ (hnext w hw)
  | note hnext =>
      exact (Run.Upholds.ofEffect (.record _)).bind fun _ _ => h.perform _ hnext
  | trace hnext => exact (Run.Upholds.traceLine _).bind fun _ _ => h.perform _ hnext

theorem upholds (henv : env.Legible) (fuel : Nat) : env.Upholds fuel := by
  induction fuel with
  | zero =>
      constructor
      · exact fun _ _ => .unfinished
      · exact fun _ _ => .unfinished
      · exact fun _ _ => .unfinished
      · exact fun _ _ => .unfinished
  | succ fuel ih =>
      constructor
      · exact fun x hx => upholds_dispatch_succ ih hx
      · exact fun e he => upholds_invoke_succ henv ih he
      · exact fun a ha => upholds_perform_succ ih ha
      · exact fun x hx => upholds_invokeNode_succ ih hx

end Step

end Setting

end HostedLisp
