import HostedLisp.Proofs.Evaluation.Erasure

namespace HostedLisp

/-- Whether an action evaluates nodes only if `asks` holds, and depends on the names of the running
calls only if `sees` does. -/
def Action.Restrained (asks sees : Prop) : Action → Prop
  | done _ => True
  | fail _ => True
  | eval _ next => asks ∧ ∀ v, Restrained asks sees (next v)
  | evalIn _ _ next => asks ∧ ∀ v, Restrained asks sees (next v)
  | invoke _ next => ∀ v, Restrained asks sees (next v)
  | within _ body next => Restrained asks sees body ∧ ∀ v, Restrained asks sees (next v)
  | bind _ _ next => Restrained asks sees next
  | recover body handler next =>
      Restrained asks sees body ∧ (∀ f, Restrained asks sees (handler f)) ∧
        ∀ v, Restrained asks sees (next v)
  | settle _ next => ∀ vs, Restrained asks sees (next vs)
  | view next => ∀ names, Restrained asks sees (next names)
  | running next =>
      (sees ∨ ∀ names names', next names = next names') ∧
        ∀ names, Restrained asks sees (next names)
  | effect _ next => ∀ v, Restrained asks sees (next v)
  | note _ next => Restrained asks sees next
  | trace _ next => Restrained asks sees next

/-- Whether the evaluator keeps a relation between states, given the depth of the second one. It has
to enter evaluations only if `asks` holds, and the calls may differ in name unless `sees` does. -/
structure Lockstep (R : Nat → Machine → Machine → Prop) (asks sees : Prop) : Prop where
  sharesMemory : ∀ d, Machine.SharesMemory (R d)
  visit : ∀ {d m m'}, R d m m' → ∀ v,
    R d { m with current := some v } { m' with current := some v }
  traceLine : ∀ {d m m'}, R d m m' → ∀ line, R d (Run.traceLine line m).2 (Run.traceLine line m').2
  calling : ∀ {d m m'}, R d m m' → ∀ frame, R d (m.calling frame) (m'.calling frame)
  answered : ∀ {d m m' n n'}, R d m m' → R d n n' →
    R d { n with frames := n.frames.take m.activeFrames, activeFrames := m.activeFrames }
      { n' with frames := n'.frames.take m'.activeFrames, activeFrames := m'.activeFrames }
  unanswered : ∀ {d m m' n n'}, R d m m' → R d n n' →
    R d { n with activeFrames := m.activeFrames } { n' with activeFrames := m'.activeFrames }
  evaluating : asks → ∀ {d m m'}, R d m m' → ∀ scope,
    R (d + 1) (m.evaluating scope) (m'.evaluating scope)
  evaluated : ∀ {d m m' n n'}, R d m m' → R (d + 1) n n' →
    R d { n with scope := m.scope, depth := n.depth - 1 }
      { n' with scope := m'.scope, depth := n'.depth - 1 }
  names_eq : sees → ∀ {d m m'}, R d m m' → m.frames.map Frame.name = m'.frames.map Frame.name

namespace Lockstep

open Run

variable {R : Nat → Machine → Machine → Prop} {asks sees : Prop} {d : Nat} {α : Type}
variable {r r' : Run α} (hR : Lockstep R asks sees)
include hR

theorem inStep_visit (v : Value) : InStep (R d) (Run.visit v) (Run.visit v) :=
  fun _ _ hm => ⟨rfl, hR.visit hm v⟩

theorem inStep_traceLine (line : String) :
    InStep (R d) (Run.traceLine line) (Run.traceLine line) :=
  fun _ _ hm => ⟨rfl, hR.traceLine hm line⟩

theorem inStep_ofEffect (e : Effect α) : InStep (R d) (Run.ofEffect e) (Run.ofEffect e) :=
  (hR.sharesMemory d).ofEffect e

theorem inStep_framed (h : InStep (R d) r r') (frame : Frame) :
    InStep (R d) (Run.framed frame r) (Run.framed frame r') := by
  intro m m' hm
  obtain ⟨hresult, hmachines⟩ := h _ _ (hR.calling hm frame)
  rw [Run.framed_eq, Run.framed_eq]
  cases hr : r (m.calling frame) with
  | mk o n =>
      cases hr' : r' (m'.calling frame) with
      | mk o' n' =>
          rw [hr, hr'] at hresult hmachines
          obtain rfl : o = o' := hresult
          cases o with
          | ok a => exact ⟨rfl, hR.answered hm hmachines⟩
          | failed f => exact ⟨rfl, hR.unanswered hm hmachines⟩
          | unfinished => exact ⟨rfl, hR.unanswered hm hmachines⟩

theorem inStep_evaluation (hasks : asks) (h : InStep (R (d + 1)) r r') (scope : Option Nat) :
    InStep (R d) (Run.evaluation scope r) (Run.evaluation scope r') := by
  intro m m' hm
  obtain ⟨hresult, hmachines⟩ := h _ _ (hR.evaluating hasks hm scope)
  rw [Run.evaluation_eq, Run.evaluation_eq]
  exact ⟨hresult, hR.evaluated hm hmachines⟩

end Lockstep

namespace Setting

open Run

/-- Whether evaluations with some fuel are in step, however deep they are. -/
structure InStepWith (env : Setting) (R : Nat → Machine → Machine → Prop) (asks sees : Prop)
    (fuel : Nat) : Prop where
  dispatch : ∀ d x, InStep (R d) (env.dispatch fuel x) (env.dispatch fuel x)
  invoke : ∀ d e, InStep (R d) (env.invoke fuel e) (env.invoke fuel e)
  perform : ∀ d a, Action.Restrained asks sees a →
    InStep (R d) (env.perform fuel a) (env.perform fuel a)
  invokeNode : ∀ d x, InStep (R d) (env.invokeNode fuel x) (env.invokeNode fuel x)

section Step

variable {env : Setting} {fuel : Nat} {R : Nat → Machine → Machine → Prop} {asks sees : Prop}
variable (hR : Lockstep R asks sees) {d : Nat}
include hR

theorem inStep_callMember (line : String) (frame : Frame) (member : Member)
    (arguments : List Value) :
    InStep (R d) (Run.traceLine line >>= fun _ => env.callMember frame member arguments)
      (Run.traceLine line >>= fun _ => env.callMember frame member arguments) :=
  (hR.inStep_traceLine line).bind fun _ => hR.inStep_framed (hR.inStep_ofEffect _) frame

theorem inStep_invokeStatic {evaluate : Node → Run Value}
    (h : ∀ x, InStep (R d) (evaluate x) (evaluate x)) (path : List String) (member : String)
    (e : Invocation) :
    InStep (R d) (env.invokeStatic evaluate path member e)
      (env.invokeStatic evaluate path member e) := by
  unfold invokeStatic
  refine (hR.inStep_ofEffect _).bind fun found => ?_
  cases found with
  | none => exact .fail _
  | some target =>
      refine (InStep.mapAll h e.parameters).bind fun arguments =>
        (hR.inStep_visit _).bind fun _ => (hR.inStep_ofEffect _).bind fun found => ?_
      cases found with
      | none => exact .fail _
      | some m => exact inStep_callMember hR _ _ m arguments

theorem inStep_invokeInstance {evaluate : Node → Run Value}
    (h : ∀ x, InStep (R d) (evaluate x) (evaluate x)) (member : String) (e : Invocation) :
    InStep (R d) (env.invokeInstance evaluate member e)
      (env.invokeInstance evaluate member e) := by
  unfold invokeInstance
  cases e.parameters with
  | nil => exact .fail _
  | cons x rest =>
      refine (h x).bind fun receiver => (hR.inStep_visit _).bind fun _ => ?_
      split
      · exact .fail _
      · refine (InStep.mapAll h rest).bind fun arguments =>
          (hR.inStep_visit _).bind fun _ => (hR.inStep_ofEffect _).bind fun found => ?_
        cases found with
        | none => exact .fail _
        | some m => exact inStep_callMember hR _ _ m _

theorem inStep_dispatch_succ (h : env.InStepWith R asks sees fuel) (x : Node) :
    InStep (R d) (env.dispatch (fuel + 1) x) (env.dispatch (fuel + 1) x) := by
  rw [dispatch.eq_def]
  refine (hR.inStep_visit _).bind fun _ => ?_
  cases x with
  | error message span => exact .fail _
  | literal v span => exact .pure _
  | identifier name span => exact (hR.sharesMemory d).lookup name
  | list xs span => exact (InStep.mapAll (h.dispatch d) xs).bind fun vs => hR.inStep_ofEffect _
  | quote inner span => exact .pure _
  | invocation head parameters span => exact h.invoke d ⟨head, parameters, span⟩
  | instanceMember member span => exact .fail _
  | staticMember path member span => exact .fail _

theorem inStep_invoke_succ
    (hprimitives : ∀ entry ∈ env.primitives, ∀ e, (entry.2 e).Restrained asks sees)
    (h : env.InStepWith R asks sees fuel) (e : Invocation) :
    InStep (R d) (env.invoke (fuel + 1) e) (env.invoke (fuel + 1) e) := by
  rw [invoke]
  cases e.head with
  | identifier name place =>
      dsimp only
      cases hfind : env.primitives.find? name with
      | none => exact .fail _
      | some p =>
          obtain ⟨entry, hentry, rfl⟩ := Option.map_eq_some_iff.mp hfind
          have hp := hprimitives entry (List.mem_of_find?_eq_some hentry) e
          exact (hR.inStep_traceLine _).bind fun _ => hR.inStep_framed (h.perform d _ hp) _
  | staticMember path member _ => exact inStep_invokeStatic hR (h.dispatch d) path member e
  | instanceMember member _ => exact inStep_invokeInstance hR (h.dispatch d) member e
  | _ => exact .fail _

omit hR in
theorem inStep_invokeNode_succ (h : env.InStepWith R asks sees fuel) (x : Node) :
    InStep (R d) (env.invokeNode (fuel + 1) x) (env.invokeNode (fuel + 1) x) := by
  cases x with
  | invocation head parameters span =>
      rw [invokeNode]
      exact h.invoke d ⟨head, parameters, span⟩
  | _ => exact .fail _

theorem inStep_perform_succ (h : env.InStepWith R asks sees fuel) {a : Action}
    (ha : a.Restrained asks sees) :
    InStep (R d) (env.perform (fuel + 1) a) (env.perform (fuel + 1) a) := by
  have hmemory := hR.sharesMemory d
  rw [perform.eq_def]
  cases a with
  | done v => exact hR.inStep_ofEffect _
  | fail f => exact .fail f
  | eval x next =>
      have hx := hR.inStep_evaluation ha.1 (h.dispatch (d + 1) x) none
      exact hmemory.settled hx fun v => h.perform d _ (ha.2 v)
  | evalIn r x next =>
      refine (hmemory.scopeOf r).bind fun scope => ?_
      have hx := hR.inStep_evaluation ha.1 (h.dispatch (d + 1) x) scope
      exact hmemory.settled hx fun v => h.perform d _ (ha.2 v)
  | invoke x next => exact hmemory.settled (h.invokeNode d x) fun v => h.perform d _ (ha v)
  | within bindings body next =>
      have hbody := (hmemory.bindAllHere bindings).bind fun _ => h.perform d body ha.1
      exact (hmemory.inChild hbody).bind fun v => h.perform d _ (ha.2 v)
  | bind name v next => exact (hmemory.bindHere name v).bind fun _ => h.perform d _ ha
  | recover body handler next =>
      have hrecover := (h.perform d body ha.1).recover fun f => h.perform d (handler f) (ha.2.1 f)
      exact hrecover.bind fun v => h.perform d _ (ha.2.2 v)
  | settle vs next => exact (hR.inStep_ofEffect _).bind fun s => h.perform d _ (ha _)
  | view next =>
      refine .read_bind fun m m' hm => ?_
      rw [hmemory.scopes_eq hm, hmemory.scope_eq hm, hmemory.store_eq hm]
      exact h.perform d _ (ha _)
  | running next =>
      refine .read_bind fun m m' hm => ?_
      have hnext : next (m.frames.map Frame.name) = next (m'.frames.map Frame.name) := by
        rcases ha.1 with hsees | hconstant
        · rw [hR.names_eq hsees hm]
        · exact hconstant _ _
      rw [hnext]
      exact h.perform d _ (ha.2 _)
  | effect computation next =>
      exact (hR.inStep_ofEffect computation).bind fun v => (hR.inStep_ofEffect _).bind fun v =>
        h.perform d _ (ha v)
  | note v next => exact (hR.inStep_ofEffect _).bind fun _ => h.perform d _ ha
  | trace line next => exact (hR.inStep_traceLine line).bind fun _ => h.perform d _ ha

theorem inStepWith
    (hprimitives : ∀ entry ∈ env.primitives, ∀ e, (entry.2 e).Restrained asks sees) (fuel : Nat) :
    env.InStepWith R asks sees fuel := by
  -- All four at once, since each function calls the others with the fuel that is left.
  induction fuel with
  | zero =>
      constructor
      · exact fun _ _ => .unfinished
      · exact fun _ _ => .unfinished
      · exact fun _ _ _ => .unfinished
      · exact fun _ _ => .unfinished
  | succ fuel ih =>
      constructor
      · exact fun _ => inStep_dispatch_succ hR ih
      · exact fun _ => inStep_invoke_succ hR hprimitives ih
      · exact fun _ _ => inStep_perform_succ hR ih
      · exact fun _ => inStep_invokeNode_succ ih

end Step

end Setting

end HostedLisp
