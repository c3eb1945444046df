import HostedLisp.Host.Sample
import HostedLisp.Proofs.Evaluation.Lockstep
import HostedLisp.Proofs.Primitive.Heedlessness

/-!
The two ways into the evaluator: to evaluate an invocation, and to invoke it right away, which
counts as no evaluation. Main statement: they have the same result and leave the same state, apart
from the frames and from the node at hand where nothing was visited. The frames are the same as well
inside an evaluation, or where no primitive evaluates anything; but outside, the evaluation of a
parameter takes itself for an outermost one and forgets the frames of the calls that are running.
-/

namespace HostedLisp

namespace Machine

/-- The state without the frames, the depth and the node at hand. -/
def detached (m : Machine) : Machine := { m with frames := [], depth := 0, current := none }

theorem erasure_detached : Erasure detached where
  scopes_eq {m m'} h := (congrArg scopes h : m.detached.scopes = m'.detached.scopes)
  scope_eq {m m'} h := (congrArg scope h : m.detached.scope = m'.detached.scope)
  store_eq {m m'} h := (congrArg store h : m.detached.store = m'.detached.store)
  withScopes h s := congrArg (fun n : Machine => { n with scopes := s }) h
  withScope h i := congrArg (fun n : Machine => { n with scope := i }) h
  withStore h s := congrArg (fun n : Machine => { n with store := s }) h

theorem activeFrames_eq_of_detached {m m' : Machine} (h : m.detached = m'.detached) :
    m.activeFrames = m'.activeFrames :=
  (congrArg activeFrames h : m.detached.activeFrames = m'.detached.activeFrames)

/-- Whether the first state is that of an evaluation and the second one that of an invocation of the
same node at a depth, where `before` is what was at hand until then. The frames are the same if
`exact` holds. -/
structure Beside (exact : Prop) (x : Node) (before : Option Value) (depth : Nat) (m m' : Machine) :
    Prop where
  depth_eq : m.depth = depth + 1
  depth_eq' : m'.depth = depth
  detached_eq : m.detached = m'.detached
  current : m.current = m'.current ∨ m.current = some (.code x) ∧ m'.current = before
  frames_eq : exact → m.frames = m'.frames

namespace Beside

variable {exact : Prop} {x : Node} {before : Option Value} {depth : Nat} {m m' n n' : Machine}

theorem sharesMemory : SharesMemory (Beside exact x before depth) where
  scopes_eq h := erasure_detached.scopes_eq h.detached_eq
  scope_eq h := erasure_detached.scope_eq h.detached_eq
  store_eq h := erasure_detached.store_eq h.detached_eq
  withScopes h s := { h with detached_eq := erasure_detached.withScopes h.detached_eq s }
  withScope h i := { h with detached_eq := erasure_detached.withScope h.detached_eq i }
  withStore h s := { h with detached_eq := erasure_detached.withStore h.detached_eq s }

theorem traceLine (h : Beside exact x before depth m m') (line : String) :
    Beside exact x before depth (Run.traceLine line m).2 (Run.traceLine line m').2 := by
  have htracing : m.tracing = m'.tracing :=
    (congrArg tracing h.detached_eq : m.detached.tracing = m'.detached.tracing)
  have htrace := congrArg
    (fun k : Machine => { k with trace := k.trace ++ ["[DBG] " ++ line] }) h.detached_eq
  change Beside exact x before depth
    (if m.tracing then { m with trace := m.trace ++ ["[DBG] " ++ line] } else m)
    (if m'.tracing then { m' with trace := m'.trace ++ ["[DBG] " ++ line] } else m')
  by_cases hon : m.tracing
  · rw [if_pos hon, if_pos (htracing ▸ hon)]
    exact { h with detached_eq := htrace }
  · rw [if_neg hon, if_neg (htracing ▸ hon)]
    exact h

theorem calling (h : Beside exact x before depth m m') (frame : Frame) :
    Beside exact x before depth (m.calling frame) (m'.calling frame) where
  depth_eq := h.depth_eq
  depth_eq' := h.depth_eq'
  detached_eq :=
    congrArg (fun k : Machine => { k with activeFrames := k.activeFrames + 1 }) h.detached_eq
  current := h.current
  frames_eq hexact := by
    rw [Machine.calling, Machine.calling, h.frames_eq hexact,
      activeFrames_eq_of_detached h.detached_eq]

theorem unanswered (h : Beside exact x before depth m m') (hn : Beside exact x before depth n n') :
    Beside exact x before depth { n with activeFrames := m.activeFrames }
      { n' with activeFrames := m'.activeFrames } := by
  rw [activeFrames_eq_of_detached h.detached_eq]
  have hdetached := congrArg
    (fun k : Machine => { k with activeFrames := m'.activeFrames }) hn.detached_eq
  exact { hn with detached_eq := hdetached }

theorem answered (h : Beside exact x before depth m m') (hn : Beside exact x before depth n n') :
    Beside exact x before depth
      { n with frames := n.frames.take m.activeFrames, activeFrames := m.activeFrames }
      { n' with frames := n'.frames.take m'.activeFrames, activeFrames := m'.activeFrames } := by
  refine { unanswered h hn with frames_eq := fun hexact => ?_ }
  change n.frames.take m.activeFrames = n'.frames.take m'.activeFrames
  rw [hn.frames_eq hexact, activeFrames_eq_of_detached h.detached_eq]

theorem evaluating (h : Beside exact x before depth m m') (hdepth : exact → 0 < depth)
    (scope : Option Nat) :
    Beside exact x before (depth + 1) (m.evaluating scope) (m'.evaluating scope) where
  depth_eq := congrArg (· + 1) h.depth_eq
  depth_eq' := congrArg (· + 1) h.depth_eq'
  detached_eq := by
    change { m.detached with scope := scope.getD m.scope } =
      { m'.detached with scope := scope.getD m'.scope }
    rw [h.detached_eq, erasure_detached.scope_eq h.detached_eq]
  current := h.current
  frames_eq hexact := by
    have hpos := hdepth hexact
    have hdeeper := h.depth_eq
    have hdeep := h.depth_eq'
    change (if m.depth = 0 then [] else m.frames) = if m'.depth = 0 then [] else m'.frames
    rw [if_neg (by omega), if_neg (by omega), h.frames_eq hexact]

theorem evaluated (h : Beside exact x before depth m m')
    (hn : Beside exact x before (depth + 1) n n') :
    Beside exact x before depth { n with scope := m.scope, depth := n.depth - 1 }
      { n' with scope := m'.scope, depth := n'.depth - 1 } := by
  rw [erasure_detached.scope_eq h.detached_eq]
  have hdetached := erasure_detached.withScope hn.detached_eq m'.scope
  exact { hn with
    depth_eq := congrArg (· - 1) hn.depth_eq
    depth_eq' := congrArg (· - 1) hn.depth_eq'
    detached_eq := hdetached }

/-- The states stay beside each other. Outside of all evaluations, the frames stay the same only if
nothing is evaluated. -/
theorem lockstep (exact : Prop) (x : Node) (before : Option Value) (start : Nat) :
    Lockstep (fun d => Beside exact x before (d + start)) (exact → 0 < start) exact where
  sharesMemory _ := sharesMemory
  visit h v := {
    h with
    detached_eq := h.detached_eq
    current := .inl rfl }
  traceLine := traceLine
  calling := calling
  answered := answered
  unanswered := unanswered
  evaluating hasks d m m' h scope := by
    rw [Nat.add_right_comm]
    exact h.evaluating (fun hexact => Nat.add_pos_right d (hasks hexact)) scope
  evaluated {d m m' n n'} h hn := by
    rw [Nat.add_right_comm] at hn
    exact h.evaluated hn
  names_eq hexact _ _ _ h := congrArg (List.map Frame.name) (h.frames_eq hexact)

end Beside

end Machine

/-- Whether a primitive evaluates nothing. -/
def Primitive.Passive (p : Primitive) : Prop := ∀ e, (p e).Restrained False True

theorem Action.restrained_of_asks {asks : Prop} (hasks : asks) (a : Action) :
    a.Restrained asks True := by
  induction a with
  | done | fail => trivial
  | eval x next ih | evalIn r x next ih => exact ⟨hasks, ih⟩
  | invoke x next ih | settle vs next ih | view next ih | effect computation next ih => exact ih
  | within bindings body next ihbody ihnext => exact ⟨ihbody, ihnext⟩
  | bind name v next ih | note v next ih | trace line next ih => exact ih
  | recover body handler next ihbody ihhandler ihnext => exact ⟨ihbody, ihhandler, ihnext⟩
  | running next ih => exact ⟨.inl trivial, ih⟩

/-- Whether a computation that answers leaves no frame beyond the active ones. -/
def Run.Clears {α : Type} (r : Run α) : Prop := ∀ m a, (r m).1 = .ok a → (r m).2.Bare

namespace Run.Clears

variable {α β : Type}

theorem fail (f : Failure) : Clears (Run.fail f : Run α) := fun _ _ h => by cases h

theorem unfinished : Clears (Run.unfinished : Run α) := fun _ _ h => by cases h

theorem framed (frame : Frame) (r : Run α) : Clears (Run.framed frame r) := by
  intro m a h
  rw [Run.framed_eq] at h ⊢
  cases hr : r (m.calling frame) with
  | mk o n =>
      rw [hr] at h
      cases o with
      | ok b => exact List.length_take_le _ _
      | failed f => cases h
      | unfinished => cases h

theorem bind {r : Run α} {k : α → Run β} (hk : ∀ a, Clears (k a)) : Clears (r >>= k) := by
  intro m b h
  change (Run.bind r k m).1 = .ok b at h
  change (Run.bind r k m).2.Bare
  unfold Run.bind at h ⊢
  cases hr : r m with
  | mk o n =>
      rw [hr] at h
      cases o with
      | ok a => exact hk a n b h
      | failed f => cases h
      | unfinished => cases h

end Run.Clears

namespace Setting

open Run

theorem clears_invoke (env : Setting) (fuel : Nat) (e : Invocation) :
    Clears (env.invoke fuel e) := by
  cases fuel with
  | zero => exact .unfinished
  | succ fuel =>
      rw [invoke]
      cases e.head with
      | identifier name place =>
          dsimp only
          cases env.primitives.find? name with
          | none => exact .fail _
          | some p => exact .bind fun _ => .framed _ _
      | staticMember path member place =>
          refine .bind fun found => ?_
          cases found with
          | none => exact .fail _
          | some target =>
              refine .bind fun arguments => .bind fun _ => .bind fun found => ?_
              cases found with
              | none => exact .fail _
              | some m => exact .bind fun _ => .framed _ _
      | instanceMember member place =>
          dsimp only
          unfold invokeInstance
          cases e.parameters with
          | nil => exact .fail _
          | cons x rest =>
              refine .bind fun receiver => .bind fun _ => ?_
              split
              · exact .fail _
              · refine .bind fun arguments => .bind fun _ => .bind fun found => ?_
                cases found with
                | none => exact .fail _
                | some m => exact .bind fun _ => .framed _ _
      | _ => exact .fail _

/-- What the evaluation of an invocation and the invocation itself have in common, where `before`
was at hand. -/
structure EntriesAgree (x : Node) (before : Option Value)
    (evaluated invoked : Outcome Value × Machine) : Prop where
  outcome_eq : evaluated.1 = invoked.1
  detached_eq : evaluated.2.detached = invoked.2.detached
  depth_eq : evaluated.2.depth = invoked.2.depth
  current : evaluated.2.current = invoked.2.current ∨
    evaluated.2.current = some (.code x) ∧ invoked.2.current = before

variable {env : Setting}

theorem dispatch_invocation (fuel : Nat) (e : Invocation) (m : Machine) :
    env.dispatch (fuel + 1) e.node m =
      env.invoke fuel e { m with current := some (.code e.node) } := by
  rw [Invocation.node, dispatch]
  rfl

theorem invokeNode_invocation (fuel : Nat) (e : Invocation) :
    env.invokeNode (fuel + 1) e.node = env.invoke fuel e := by
  rw [Invocation.node, invokeNode]

theorem beside_entered {exact : Prop} {m : Machine} (x : Node)
    (hframes : exact → (m.evaluating none).frames = m.frames) :
    Machine.Beside exact x m.current m.depth
      { m.evaluating none with current := some (.code x) } m where
  depth_eq := rfl
  depth_eq' := rfl
  detached_eq := rfl
  current := .inr ⟨rfl, rfl⟩
  frames_eq := hframes

theorem entriesAgree_of_restrained {exact : Prop} (fuel : Nat) (e : Invocation) (m : Machine)
    (hprimitives : ∀ entry ∈ env.primitives, ∀ e,
      (entry.2 e).Restrained (exact → 0 < m.depth) exact)
    (hframes : exact → (m.evaluating none).frames = m.frames) :
    let evaluated := Run.evaluation none (env.dispatch fuel e.node) m
    let invoked := env.invokeNode fuel e.node m
    EntriesAgree e.node m.current evaluated invoked ∧
      (exact → evaluated.2.frames = invoked.2.frames) := by
  intro evaluated invoked
  cases fuel with
  | zero => exact ⟨⟨rfl, rfl, rfl, .inl rfl⟩, hframes⟩
  | succ fuel =>
      have hsteps := inStepWith
        (Machine.Beside.lockstep exact e.node m.current m.depth) hprimitives fuel
      have hstart := beside_entered e.node hframes
      rw [← Nat.zero_add m.depth] at hstart
      obtain ⟨hresult, hafter⟩ := hsteps.invoke 0 e _ _ hstart
      rw [← dispatch_invocation, ← invokeNode_invocation] at hresult hafter
      have hscope : invoked.2.scope = m.scope :=
        ((compositional_balanced.holdsWith env (fuel + 1)).invokeNode e.node m).1
      refine ⟨⟨hresult, ?_, ?_, hafter.current⟩, hafter.frames_eq⟩
      · change { (env.dispatch (fuel + 1) e.node (m.evaluating none)).2.detached with
          scope := m.scope } = invoked.2.detached
        rw [hafter.detached_eq, ← hscope]
        rfl
      · change (env.dispatch (fuel + 1) e.node (m.evaluating none)).2.depth - 1 = invoked.2.depth
        rw [hafter.depth_eq, ← hafter.depth_eq']
        rfl

theorem clears_dispatch (env : Setting) (fuel : Nat) (e : Invocation) :
    Clears (env.dispatch fuel e.node) := by
  cases fuel with
  | zero => exact .unfinished
  | succ fuel =>
      intro m v h
      rw [dispatch_invocation] at h ⊢
      exact env.clears_invoke fuel e _ v h

theorem clears_invokeNode (env : Setting) (fuel : Nat) (e : Invocation) :
    Clears (env.invokeNode fuel e.node) := by
  cases fuel with
  | zero => exact .unfinished
  | succ fuel =>
      rw [invokeNode_invocation]
      exact env.clears_invoke fuel e

/-- Where no call is running, an invocation that answers leaves no frames, whichever way it is
entered. -/
theorem frames_eq_nil_of_answer (env : Setting) (fuel : Nat) (e : Invocation) {m : Machine}
    (hactive : m.activeFrames = 0) {v : Value}
    (hevaluated : (Run.evaluation none (env.dispatch fuel e.node) m).1 = .ok v)
    (hinvoked : (env.invokeNode fuel e.node m).1 = .ok v) :
    (Run.evaluation none (env.dispatch fuel e.node) m).2.frames = [] ∧
      (env.invokeNode fuel e.node m).2.frames = [] := by
  have hnil : ∀ {n : Machine}, n.Bare → n.activeFrames = m.activeFrames → n.frames = [] :=
    fun hbare hn => List.eq_nil_of_length_eq_zero (Nat.le_zero.mp (hactive ▸ hn ▸ hbare))
  constructor
  · have hbalanced := env.balanced_evaluation fuel e.node none m
    exact hnil (env.clears_dispatch fuel e _ v hevaluated) hbalanced.2.2
  · have hbalanced := (compositional_balanced.holdsWith env fuel).invokeNode e.node m
    exact hnil (env.clears_invokeNode fuel e _ v hinvoked) hbalanced.2.2

/-- If no primitive asks for the running calls, to evaluate an invocation and to invoke it has the
same result from every state and leaves the same, apart from the frames and from the node at hand
where the invocation visits none; and both leave no frames if they answer where no call is running.
The frames are the same as well if this happens inside an evaluation, or if there were none and the
primitives evaluate nothing. -/
theorem entries_agree (env : Setting) (fuel : Nat) (e : Invocation) (m : Machine) :
    let evaluated := Run.evaluation none (env.dispatch fuel e.node) m
    let invoked := env.invokeNode fuel e.node m
    ((∀ entry ∈ env.primitives, Primitive.Heedless entry.2) →
      EntriesAgree e.node m.current evaluated invoked ∧
        (m.activeFrames = 0 → ∀ v, evaluated.1 = .ok v →
          evaluated.2.frames = [] ∧ invoked.2.frames = [])) ∧
    (0 < m.depth ∨ m.frames = [] ∧ (∀ entry ∈ env.primitives, Primitive.Passive entry.2) →
      EntriesAgree e.node m.current evaluated invoked ∧
        evaluated.2.frames = invoked.2.frames) := by
  intro evaluated invoked
  constructor
  · intro hheedless
    have hrestrained : ∀ entry ∈ env.primitives, ∀ e,
        (entry.2 e).Restrained (False → 0 < m.depth) False := fun entry hentry e => by
      rw [false_imp_iff]
      exact (hheedless entry hentry e).restrained
    have hagree := (entriesAgree_of_restrained fuel e m hrestrained False.elim).1
    exact ⟨hagree, fun hactive v hv =>
      env.frames_eq_nil_of_answer fuel e hactive hv (hagree.outcome_eq.symm.trans hv)⟩
  · intro hexact
    have hframes : (m.evaluating none).frames = m.frames := by
      rcases hexact with hpos | ⟨hnil, -⟩
      · exact if_neg (Nat.ne_of_gt hpos)
      · change (if m.depth = 0 then [] else m.frames) = m.frames
        rw [hnil, ite_self]
    have hrestrained : ∀ entry ∈ env.primitives, ∀ e,
        (entry.2 e).Restrained (True → 0 < m.depth) True := fun entry hentry e => by
      rcases hexact with hpos | ⟨-, hpassive⟩
      · exact Action.restrained_of_asks (fun _ => hpos) _
      · by_cases hpos : 0 < m.depth
        · exact Action.restrained_of_asks (fun _ => hpos) _
        · rw [true_imp_iff, eq_false hpos]
          exact hpassive entry hentry e
    have h := entriesAgree_of_restrained fuel e m hrestrained fun _ => hframes
    exact ⟨h.1, h.2 trivial⟩

section Samples

/-- A call of a standard primitive with parameters that are all the number one. -/
def onOnes (name : String) (count : Nat) : Invocation :=
  ⟨.identifier name .absent, List.replicate count (.literal (.integer 1) .absent), .absent⟩

open scoped Sample

/-- A comparison answers and leaves no frames; within another call, one that fails leaves the same
frames either way. -/
theorem entries_agree_standard :
    let env : Setting := ⟨Table.host, Primitive.standard⟩
    let running : Machine := {
      Machine.initial with
      frames := [⟨"with", [], (onOnes "with" 1).node⟩]
      activeFrames := 1
      depth := 1 }
    (env.invokeNode 6 (onOnes "eq" 2).node .initial).2.frames = [] ∧
      (Run.evaluation none (env.dispatch 6 (onOnes "if" 3).node) running).2.frames.map Frame.name =
        ["with", "if"] ∧
      (Run.evaluation none (env.dispatch 6 (onOnes "if" 3).node) running).2.frames =
        (env.invokeNode 6 (onOnes "if" 3).node running).2.frames := by
  intro env running
  have hanswer :
      (Run.evaluation none (env.dispatch 6 (onOnes "eq" 2).node) .initial).1.isAnswer = true := by
    decide +kernel
  obtain ⟨v, hv⟩ := Outcome.exists_of_isAnswer hanswer
  have hequal := (entries_agree env 6 (onOnes "eq" 2) .initial).1 Primitive.heedless_standard
  have hfailed := (entries_agree env 6 (onOnes "if" 3) running).2 (.inl Nat.one_pos)
  exact ⟨(hequal.2 rfl v hv).2, by decide +kernel, hfailed.2⟩

/-- Outside of all evaluations, that of a parameter forgets the frame of the call which it is a
parameter of. So an invocation that fails leaves no frames, and its evaluation leaves one. -/
theorem frames_forgotten_by_parameter :
    let env : Setting := ⟨Table.host, Primitive.standard⟩
    let x := (onOnes "if" 3).node
    let evaluated := Run.evaluation none (env.dispatch 6 x) .initial
    let invoked := env.invokeNode 6 x .initial
    evaluated.2.frames.map Frame.name = ["if"] ∧ invoked.2.frames.map Frame.name = [] ∧
      ¬ invoked.2.frames = evaluated.2.frames := by
  intro env x evaluated invoked
  have hevaluated : evaluated.2.frames.map Frame.name = ["if"] := by decide +kernel
  have hinvoked : invoked.2.frames.map Frame.name = [] := by decide +kernel
  refine ⟨hevaluated, hinvoked, fun heq => ?_⟩
  rw [heq, hevaluated] at hinvoked
  cases hinvoked

end Samples

end Setting

end HostedLisp
