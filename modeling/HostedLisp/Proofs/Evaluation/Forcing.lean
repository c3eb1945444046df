import HostedLisp.Host.Sample
import HostedLisp.Proofs.Evaluation.Fuel
import HostedLisp.Proofs.Primitive.Heedlessness
import HostedLisp.Proofs.Value.PlainData

/-!
Forcing quotes. Main statement: a node in as many calls of `eval` as quotes is evaluated as the node
itself. One call takes one quote away, and the other calls, which see only quotes, do nothing that
is not for reports.
-/

namespace HostedLisp

namespace Node

/-- The node in quotes, the first of them innermost. -/
def quoted (x : Node) : List Span → Node
  | [] => x
  | span :: rest => (quote x span).quoted rest

/-- The node in calls of `eval`, the first of them outermost. A call comes with the places of the
name and of the whole. -/
def forced (x : Node) : List (Span × Span) → Node
  | [] => x
  | (place, span) :: rest => .invocation (.identifier "eval" place) [x.forced rest] span

end Node

namespace Store

/-- A value as a primitive answers it: up to date, and with identities for what is new in it. -/
def handOn (s : Store) (v : Value) : Value × Store := s.adopt (s.settle v)

variable {s : Store}

theorem settle_code (x : Node) : s.settle (.code x) = .code x :=
  settle_of_update_eq fun _ => rfl

theorem handOn_code (x : Node) : s.handOn (.code x) = (.code x, s) := by
  rw [handOn, settle_code]
  rfl

theorem handOn_eq_settle {v : Value} (h : 0 ∉ (s.settle v).identities) :
    s.handOn v = (s.settle v, s) := by
  rw [handOn, adopt, (s.settle v).place_eq_self s.nextIdentity h]

end Store

namespace Run

/-- Answers the value of a computation as a primitive does. -/
def handedOn (r : Run Value) : Run Value := do
  Run.ofEffect (Effect.adopt (← Run.ofEffect (Effect.settle (← r))))

theorem handedOn_eq (r : Run Value) (m : Machine) :
    handedOn r m =
      match r m with
      | (.ok v, n) => (.ok (n.store.handOn v).1, { n with store := (n.store.handOn v).2 })
      | (o, n) => (o, n) := by
  change Run.bind r _ m = _
  unfold Run.bind
  cases r m with
  | mk o n => cases o <;> rfl

theorem handedOn_eq_unfinished_iff {r : Run Value} {m : Machine} :
    (handedOn r m).1 = .unfinished ↔ (r m).1 = .unfinished := by
  rw [handedOn_eq]
  cases r m with
  | mk o n => cases o <;> simp

theorem handedOn_code (x : Node) : handedOn (Run.pure (.code x)) = Run.pure (.code x) := by
  funext m
  rw [handedOn_eq]
  unfold Run.pure
  dsimp only
  rw [Store.handOn_code]

theorem evaluation_handedOn (r : Run Value) (scope : Option Nat) :
    Run.evaluation scope r.handedOn = (Run.evaluation scope r).handedOn := by
  funext m
  rw [handedOn_eq, Run.evaluation_eq, Run.evaluation_eq, handedOn_eq]
  cases r (m.evaluating scope) with
  | mk o n => cases o <;> rfl

theorem Agree.handedOn {r r' : Run Value} (h : Agree r r') : Agree r.handedOn r'.handedOn :=
  h.bind fun _ => (Agree.ofEffect _).bind fun _ => Agree.ofEffect _

end Run

namespace Setting

section Step

open Run

variable {env : Setting} (hforce : env.primitives.find? "eval" = some Primitive.force)
  (hprimitives : ∀ entry ∈ env.primitives, Primitive.Heedless entry.2)
include hprimitives

theorem agree_perform_eval_done {fuel : Nat} (hfuel : 1 ≤ fuel) (x : Node) :
    Agree (env.perform (fuel + 1) (.eval x .done)) (env.dispatch fuel x).handedOn := by
  rw [perform]
  have hx := (undisturbed hprimitives fuel).dispatch x
  refine (Agree.evaluation_here hx (env.balanced_dispatch fuel x)).bind fun v => ?_
  refine (Agree.ofEffect _).bind fun v => ?_
  obtain ⟨rest, rfl⟩ := Nat.exists_eq_add_of_le' hfuel
  rw [perform]
  exact Agree.ofEffect _

include hforce

/-- A call of `eval` on what only evaluates to a quote is the evaluation of what is quoted. -/
theorem agree_dispatch_force {fuel : Nat} (hfuel : 1 ≤ fuel) {x y : Node} {span : Span}
    (h : Agree (env.dispatch (fuel + 1) y) (Run.pure (.code (.quote x span))))
    (call : Span × Span) :
    Agree (env.dispatch (fuel + 4) (y.forced [call])) (env.dispatch fuel x).handedOn := by
  -- What the call asks for last, then all that it asks for, then the call itself.
  have hinner : Agree (env.perform (fuel + 1) (.eval x .done)) (env.dispatch fuel x).handedOn :=
    agree_perform_eval_done hprimitives hfuel x
  have hsettled : Agree (Run.ofEffect (Effect.settle (.code (.quote x span))))
      (Run.pure (.code (.quote x span))) := fun m _ hm =>
    ⟨congrArg Outcome.ok (Store.settle_code _), hm⟩
  let e : Invocation := ⟨.identifier "eval" call.1, [y], call.2⟩
  have hcall : Agree (env.perform (fuel + 2) (Primitive.force e))
      (env.dispatch fuel x).handedOn := by
    rw [Primitive.force, perform]
    refine Agree.bind_of_pure (Agree.evaluation_here h (env.balanced_dispatch _ y)) ?_
    exact Agree.bind_of_pure hsettled hinner
  rw [Node.forced, Node.forced, dispatch]
  refine Agree.bind_of_pure (Agree.visit_pure _) ?_
  rw [invoke]
  dsimp only
  rw [hforce]
  exact Agree.bind_of_pure (Agree.traceLine_pure _) (Agree.framed hcall _)

omit hforce hprimitives in
theorem agree_dispatch_quote {fuel : Nat} (hfuel : 1 ≤ fuel) (x : Node) (span : Span) :
    Agree (env.dispatch fuel (.quote x span)) (Run.pure (.code (.quote x span))) := by
  obtain ⟨rest, rfl⟩ := Nat.exists_eq_add_of_le' hfuel
  rw [dispatch]
  exact Agree.bind_of_pure (Agree.visit_pure _) (.pure _)

theorem agree_dispatch_forced_quote {calls : List (Span × Span)} {quotes : List Span}
    (hlength : calls.length = quotes.length) {fuel : Nat} (hfuel : 4 * calls.length + 1 ≤ fuel)
    (x : Node) (span : Span) :
    Agree (env.dispatch fuel (((Node.quote x span).quoted quotes).forced calls))
      (Run.pure (.code (.quote x span))) := by
  -- From the outermost call inwards: it gets the value of the others, which have a quote more.
  induction calls generalizing quotes x span fuel with
  | nil =>
      obtain rfl := List.length_eq_zero_iff.mp hlength.symm
      exact agree_dispatch_quote hfuel x span
  | cons call calls ih =>
      obtain ⟨outer, quotes, rfl⟩ := List.exists_cons_of_length_eq_add_one hlength.symm
      rw [List.length_cons] at hfuel
      obtain ⟨rest, rfl⟩ := Nat.exists_eq_add_of_le' (show 4 ≤ fuel by omega)
      have hinner := ih (Nat.succ.inj hlength) (show 4 * calls.length + 1 ≤ rest + 1 by omega)
        (.quote x span) outer
      have hcall := agree_dispatch_force hforce hprimitives (show 1 ≤ rest by omega) hinner call
      refine hcall.trans ?_
      rw [← Run.handedOn_code]
      exact (agree_dispatch_quote (by omega) x span).handedOn

theorem agree_dispatch_forced_quoted {call : Span × Span} {calls : List (Span × Span)}
    {quotes : List Span} (hlength : (call :: calls).length = quotes.length) {fuel : Nat}
    (hfuel : 4 * calls.length + 1 ≤ fuel) (x : Node) :
    Agree (env.dispatch (fuel + 4) ((x.quoted quotes).forced (call :: calls)))
      (env.dispatch fuel x).handedOn := by
  obtain ⟨span, quotes, rfl⟩ := List.exists_cons_of_length_eq_add_one hlength.symm
  have hinner := agree_dispatch_forced_quote hforce hprimitives (Nat.succ.inj hlength)
    (show 4 * calls.length + 1 ≤ fuel + 1 by omega) x span
  exact agree_dispatch_force hforce hprimitives (by omega) hinner call

end Step

/-- Whether the evaluation of a node in a scope, the current one by default, comes to an end: with
this result and in this state. -/
def Ends (env : Setting) (x : Node) (scope : Option Nat) (m : Machine) (r : Except Failure Value)
    (m' : Machine) : Prop :=
  ∃ fuel, Run.evaluation scope (env.dispatch fuel x) m = (.ofExcept r, m')

/-- Whether an evaluation came to the same end as another one: to the same failure or the same
value, with the same changes and events in the same order and the same scope and bindings. The value
is the one that a primitive answers who received it, which is up to date; if it has all its
identities, nothing else happens to it, and if it lacks some, it is given them. Of the state, only
the frames, the node at hand and the trace may differ. -/
structure SameEnd (r : Except Failure Value) (m : Machine) (r' : Except Failure Value)
    (m' : Machine) : Prop where
  failure : ∀ f, r = .error f → r' = .error f ∧ m'.store = m.store
  value : ∀ v, r = .ok v →
    r' = .ok (m.store.handOn v).1 ∧ m'.store = (m.store.handOn v).2
  value_of_identified : ∀ v, r = .ok v → 0 ∉ (m.store.settle v).identities →
    r' = .ok (m.store.settle v) ∧ m'.store = m.store
  changes : m'.store.changes = m.store.changes
  events : m'.store.events = m.store.events
  scopes : m'.scopes = m.scopes
  scope : m'.scope = m.scope
  depth : m'.depth = m.depth
  activeFrames : m'.activeFrames = m.activeFrames
  tracing : m'.tracing = m.tracing

section Ends

variable {env : Setting} {x : Node} {scope : Option Nat} {m n n' : Machine}
  {r r' : Except Failure Value}

theorem exists_ends_iff : (∃ r n, env.Ends x scope m r n) ↔
    ∃ fuel, (Run.evaluation scope (env.dispatch fuel x) m).1 ≠ .unfinished := by
  constructor
  · rintro ⟨r, n, fuel, hfuel⟩
    refine ⟨fuel, ?_⟩
    rw [hfuel]
    cases r <;> nofun
  · rintro ⟨fuel, hfuel⟩
    cases hrun : Run.evaluation scope (env.dispatch fuel x) m with
    | mk o n =>
        cases o with
        | ok v => exact ⟨.ok v, n, fuel, hrun⟩
        | failed f => exact ⟨.error f, n, fuel, hrun⟩
        | unfinished =>
            rw [hrun] at hfuel
            exact absurd rfl hfuel

theorem evaluation_eq_of_le {fuel fuel' : Nat} (hle : fuel ≤ fuel')
    (h : Run.evaluation scope (env.dispatch fuel x) m = (.ofExcept r, n)) :
    Run.evaluation scope (env.dispatch fuel' x) m = (.ofExcept r, n) := by
  have hextends := (env.extends_dispatch hle x).evaluation scope m
  rw [h] at hextends
  refine hextends ?_
  cases r <;> nofun

theorem Ends.unique (h : env.Ends x scope m r n) (h' : env.Ends x scope m r' n') :
    r' = r ∧ n' = n := by
  obtain ⟨fuel, hfuel⟩ := h
  obtain ⟨fuel', hfuel'⟩ := h'
  have heq := (evaluation_eq_of_le (Nat.le_max_right fuel fuel') hfuel').symm.trans
    (evaluation_eq_of_le (Nat.le_max_left fuel fuel') hfuel)
  obtain ⟨hresult, hstate⟩ := Prod.mk.inj heq
  refine ⟨?_, hstate⟩
  cases r <;> cases r' <;> cases hresult <;> rfl

theorem sameEnd_of_agree {q : Run Value} (hq : q m = (.ofExcept r, n))
    (hresult : .ofExcept r' = (q.handedOn m).1)
    (hstate : n'.essential = (q.handedOn m).2.essential) (hdepth : n'.depth = n.depth)
    (hactive : n'.activeFrames = n.activeFrames) : SameEnd r n r' n' := by
  rw [Run.handedOn_eq, hq] at hresult hstate
  have hscopes : n'.scopes = n.scopes := by
    have h := Machine.erasure_essential.scopes_eq hstate
    cases r <;> exact h
  have hscope : n'.scope = n.scope := by
    have h := Machine.erasure_essential.scope_eq hstate
    cases r <;> exact h
  have htracing : n'.tracing = n.tracing := by
    have h := Machine.tracing_eq_of_essential hstate
    cases r <;> exact h
  have hstore := Machine.erasure_essential.store_eq hstate
  cases r with
  | error f =>
      have hr : r' = .error f := by cases r' <;> cases hresult; rfl
      change n'.store = n.store at hstore
      exact ⟨fun g hg => ⟨hr.trans hg, hstore⟩, nofun, nofun, congrArg Store.changes hstore,
        congrArg Store.events hstore, hscopes, hscope, hdepth, hactive, htracing⟩
  | ok v =>
      have hr : r' = .ok (n.store.handOn v).1 := by cases r' <;> cases hresult; rfl
      change n'.store = (n.store.handOn v).2 at hstore
      have hchanges : n'.store.changes = n.store.changes := by rw [hstore]; rfl
      have hevents : n'.store.events = n.store.events := by rw [hstore]; rfl
      refine ⟨nofun, ?_, ?_, hchanges, hevents, hscopes, hscope, hdepth, hactive, htracing⟩
      · rintro w ⟨⟩
        exact ⟨hr, hstore⟩
      · rintro w ⟨⟩ hw
        rw [Store.handOn_eq_settle hw] at hr hstore
        exact ⟨hr, hstore⟩

end Ends

/-- If primitives do not depend on the names of the running calls, then from every state and in
every scope a node in some quotes, and then in as many calls of `eval`, is evaluated to an end
exactly if the node is, and to the same end. -/
theorem force_cancels_quotes (env : Setting)
    (hforce : env.primitives.find? "eval" = some Primitive.force)
    (hprimitives : ∀ entry ∈ env.primitives, Primitive.Heedless entry.2) (x : Node)
    (quotes : List Span) (calls : List (Span × Span)) (hlength : calls.length = quotes.length)
    (scope : Option Nat) (m : Machine) :
    ((∃ r n, env.Ends ((x.quoted quotes).forced calls) scope m r n) ↔
        ∃ r n, env.Ends x scope m r n) ∧
      ∀ r n r' n', env.Ends x scope m r n →
        env.Ends ((x.quoted quotes).forced calls) scope m r' n' →
          if calls = [] then r' = r ∧ n' = n else SameEnd r n r' n' := by
  cases calls with
  | nil =>
      obtain rfl := List.length_eq_zero_iff.mp hlength.symm
      refine ⟨.rfl, fun r n r' n' h h' => ?_⟩
      rw [if_pos rfl]
      exact h.unique h'
  | cons call calls =>
      let enough := 4 * calls.length + 1
      -- With enough fuel the wrapped node does what the node does whose value is handed on.
      have hagree : ∀ fuel, enough ≤ fuel →
          Run.Agree (Run.evaluation scope (env.dispatch (fuel + 4) ((x.quoted quotes).forced
            (call :: calls)))) (Run.evaluation scope (env.dispatch fuel x)).handedOn := by
        intro fuel hfuel
        rw [← Run.evaluation_handedOn]
        exact (agree_dispatch_forced_quoted hforce hprimitives hlength hfuel x).evaluation scope
      constructor
      · rw [exists_ends_iff, exists_ends_iff]
        constructor
        · rintro ⟨fuel, hfuel⟩
          have hle : fuel ≤ fuel + enough + 4 := by omega
          obtain ⟨hresult, -⟩ := hagree (fuel + enough) (Nat.le_add_left _ _) m m rfl
          rw [(env.extends_dispatch hle _).evaluation scope m hfuel] at hresult
          exact ⟨fuel + enough, mt Run.handedOn_eq_unfinished_iff.mpr (hresult ▸ hfuel)⟩
        · rintro ⟨fuel, hfuel⟩
          have hle : fuel ≤ fuel + enough := by omega
          obtain ⟨hresult, -⟩ := hagree (fuel + enough) (Nat.le_add_left _ _) m m rfl
          refine ⟨fuel + enough + 4, ?_⟩
          rw [hresult, ne_eq, Run.handedOn_eq_unfinished_iff,
            (env.extends_dispatch hle _).evaluation scope m hfuel]
          exact hfuel
      · rintro r n r' n' ⟨fuel, hfuel⟩ ⟨fuel', hfuel'⟩
        rw [if_neg nofun]
        have hle : fuel ≤ fuel + fuel' + enough := by omega
        have hle' : fuel' ≤ fuel + fuel' + enough + 4 := by omega
        obtain ⟨hresult, hstate⟩ := hagree (fuel + fuel' + enough) (Nat.le_add_left _ _) m m rfl
        rw [evaluation_eq_of_le hle' hfuel'] at hresult hstate
        obtain ⟨-, hdepth, hactive⟩ := env.balanced_evaluation fuel x scope m
        obtain ⟨-, hdepth', hactive'⟩ := env.balanced_evaluation fuel'
          ((x.quoted quotes).forced (call :: calls)) scope m
        rw [hfuel] at hdepth hactive
        rw [hfuel'] at hdepth' hactive'
        exact sameEnd_of_agree (evaluation_eq_of_le hle hfuel) hresult hstate
          (hdepth'.trans hdepth.symm) (hactive'.trans hactive.symm)

open scoped Sample

/-- An expression that opens a scope, fails, recovers from this and notes what is quoted, in two
quotes. -/
theorem force_cancels_quotes_of_recovery :
    let env : Setting := ⟨Table.host, Primitive.standard ++
      Primitive.sample.filter fun entry => entry.1 != "stack"⟩
    let call (name : String) (parameters : List Node) : Node :=
      .invocation (.identifier name .absent) parameters .absent
    let name : Node := .identifier "a" .absent
    let quoted : Node := .quote (.quote name .absent) .absent
    let x : Node := call "let" [name, quoted,
      call "try" [call "eq" [name], call "mark" [call "eval" [quoted]]]]
    ∃ v n, env.Ends (call "eval" [call "eval" [.quote (.quote x .absent) .absent]]) none
      Machine.initial (.ok v) n ∧ n.store.events.length = 2 := by
  intro env call name quoted x
  have hprimitives : ∀ entry ∈ env.primitives, Primitive.Heedless entry.2 := by
    intro entry hentry
    rcases List.mem_append.mp hentry with h | h
    · exact Primitive.heedless_standard entry h
    · obtain ⟨hsample, hstack⟩ := List.mem_filter.mp h
      exact Primitive.heedless_sample entry hsample (bne_iff_ne.mp hstack)
  obtain ⟨o, m, hrun⟩ : ∃ o m, Run.evaluation none (env.dispatch 20 x) Machine.initial = (o, m) :=
    ⟨_, _, rfl⟩
  have hanswer : (Run.evaluation none (env.dispatch 20 x) Machine.initial).1.isAnswer = true := by
    decide +kernel
  have hevents : (Run.evaluation none (env.dispatch 20 x) Machine.initial).2.store.events.length =
      2 := by decide +kernel
  rw [hrun] at hanswer hevents
  obtain ⟨v, rfl⟩ := Outcome.exists_of_isAnswer hanswer
  have hx : env.Ends x none Machine.initial (.ok v) m := ⟨20, hrun⟩
  obtain ⟨hends, hsame⟩ := force_cancels_quotes env rfl hprimitives x [.absent, .absent]
    [(.absent, .absent), (.absent, .absent)] rfl none Machine.initial
  obtain ⟨r, n, hwrapped⟩ := hends.mpr ⟨_, m, hx⟩
  have hend := hsame _ _ _ _ hx hwrapped
  rw [if_neg nofun] at hend
  obtain ⟨rfl, -⟩ := hend.value v rfl
  exact ⟨_, n, hwrapped, hend.events ▸ hevents⟩

end Setting

end HostedLisp
