import HostedLisp.Host.Sample
import HostedLisp.Host.Table
import HostedLisp.Primitive.Sample
import HostedLisp.Primitive.Standard
import HostedLisp.Eval

/-!
What evaluation leaves as it was. Main statement: an evaluation restores the scope, the depth, the
number of active frames and these frames themselves, whether it answers or fails and whatever
failures are recovered from on the way, and an outermost evaluation that answers leaves no frames.
-/

namespace HostedLisp

namespace Outcome

variable {α : Type} {o : Outcome α}

def isAnswer : Outcome α → Bool
  | ok _ => true
  | _ => false

theorem exists_of_isAnswer (h : o.isAnswer = true) : ∃ a, o = .ok a := by
  cases o with
  | ok a => exact ⟨a, rfl⟩
  | failed f => cases h
  | unfinished => cases h

end Outcome

namespace Machine

variable {m m' m'' : Machine}

/-- Whether the scope, the depth and the active frames are as they were. Nothing is said of the
frames beyond the active ones. -/
structure Restored (m m' : Machine) : Prop where
  scope_eq : m'.scope = m.scope
  depth_eq : m'.depth = m.depth
  activeFrames_eq : m'.activeFrames = m.activeFrames
  take_frames : m'.frames.take m.activeFrames = m.frames.take m.activeFrames

/-- Whether the machine is inside an evaluation and has all its active frames. -/
structure Nested (m : Machine) : Prop where
  depth_pos : 0 < m.depth
  active_le : m.activeFrames ≤ m.frames.length

/-- Whether there is no frame beyond the active ones. -/
def Bare (m : Machine) : Prop := m.frames.length ≤ m.activeFrames

/-- The machine in which a call runs under its frame. -/
def calling (m : Machine) (frame : Frame) : Machine :=
  { m with
    frames := m.frames.take m.activeFrames ++ [frame]
    activeFrames := m.activeFrames + 1 }

/-- The machine in which an evaluation in a scope runs. -/
def evaluating (m : Machine) (scope : Option Nat) : Machine :=
  { m with
    frames := if m.depth = 0 then [] else m.frames
    scope := scope.getD m.scope
    depth := m.depth + 1 }

/-- The machine in which a block runs in its new scope. -/
def opening (m : Machine) : Machine :=
  { m with scopes := (m.scopes.push m.scope).2, scope := (m.scopes.push m.scope).1 }

theorem Restored.trans (h : m.Restored m') (h' : m'.Restored m'') : m.Restored m'' where
  scope_eq := h'.scope_eq.trans h.scope_eq
  depth_eq := h'.depth_eq.trans h.depth_eq
  activeFrames_eq := h'.activeFrames_eq.trans h.activeFrames_eq
  take_frames := by
    have h'' := h'.take_frames
    rw [h.activeFrames_eq] at h''
    exact h''.trans h.take_frames

theorem Restored.nested (h : m.Restored m') (hm : m.Nested) : m'.Nested where
  depth_pos := h.depth_eq ▸ hm.depth_pos
  active_le := by
    have hlength := congrArg List.length h.take_frames
    rw [List.length_take, List.length_take, Nat.min_eq_left hm.active_le] at hlength
    rw [h.activeFrames_eq]
    omega

theorem Nested.calling (hm : m.Nested) (frame : Frame) : (m.calling frame).Nested where
  depth_pos := hm.depth_pos
  active_le := by
    have := hm.active_le
    simp only [Machine.calling, List.length_append, List.length_take, List.length_singleton]
    omega

theorem Nested.opening (hm : m.Nested) : m.opening.Nested :=
  ⟨hm.depth_pos, hm.active_le⟩

/-- An evaluation starts inside of itself, be it an outermost one or not. -/
theorem nested_evaluating (hactive : m.activeFrames ≤ m.frames.length)
    (hdepth : m.depth = 0 → m.activeFrames = 0) (scope : Option Nat) :
    (m.evaluating scope).Nested where
  depth_pos := Nat.succ_pos _
  active_le := by
    unfold evaluating
    dsimp only
    split
    · rename_i h
      rw [hdepth h]
      exact Nat.zero_le _
    · exact hactive

theorem Nested.evaluating (hm : m.Nested) (scope : Option Nat) : (m.evaluating scope).Nested :=
  nested_evaluating hm.active_le (fun h => absurd h (Nat.ne_of_gt hm.depth_pos)) scope

theorem Nested.frames_evaluating (hm : m.Nested) (scope : Option Nat) :
    (m.evaluating scope).frames = m.frames :=
  if_neg (Nat.ne_of_gt hm.depth_pos)

theorem Restored.take_frames_of_calling {frame : Frame} (h : (m.calling frame).Restored m')
    (hm : m.Nested) : m'.frames.take m.activeFrames = m.frames.take m.activeFrames := by
  have hframes := congrArg (List.take m.activeFrames) h.take_frames
  simpa [calling, List.take_take, List.take_append, Nat.min_eq_left hm.active_le] using hframes

theorem Restored.of_calling {frame : Frame} (h : (m.calling frame).Restored m') (hm : m.Nested) :
    m.Restored { m' with activeFrames := m.activeFrames } :=
  ⟨h.scope_eq, h.depth_eq, rfl, h.take_frames_of_calling hm⟩

theorem Restored.of_answered_calling {frame : Frame} (h : (m.calling frame).Restored m')
    (hm : m.Nested) :
    m.Restored
      { m' with frames := m'.frames.take m.activeFrames, activeFrames := m.activeFrames } :=
  ⟨h.scope_eq, h.depth_eq, rfl, by rw [List.take_take, Nat.min_self, h.take_frames_of_calling hm]⟩

theorem Restored.of_evaluating {scope : Option Nat} (h : (m.evaluating scope).Restored m')
    (hdepth : m.depth = 0 → m.activeFrames = 0) :
    m.Restored { m' with scope := m.scope, depth := m'.depth - 1 } := by
  refine ⟨rfl, ?_, h.activeFrames_eq, ?_⟩
  · dsimp only
    rw [h.depth_eq]
    rfl
  · have hframes := h.take_frames
    by_cases hm : m.depth = 0
    · -- The frames are forgotten, and none of them was active.
      rw [hdepth hm]
      rfl
    · rwa [show (m.evaluating scope).frames = m.frames from if_neg hm] at hframes

theorem Nested.restored_evaluating {scope : Option Nat} (hm : m.Nested)
    (h : (m.evaluating scope).Restored m') :
    m.Restored { m' with scope := m.scope, depth := m'.depth - 1 } :=
  h.of_evaluating fun hdepth => absurd hdepth (Nat.ne_of_gt hm.depth_pos)

theorem Restored.of_opening (h : m.opening.Restored m') :
    m.Restored { m' with scope := m.scope } :=
  ⟨rfl, h.depth_eq, h.activeFrames_eq, h.take_frames⟩

end Machine

/-- Whether a computation leaves the scope, the depth and all frames alone. -/
def Inert {α : Type} (r : Run α) : Prop :=
  ∀ m : Machine, (r m).2.scope = m.scope ∧ (r m).2.depth = m.depth ∧
    (r m).2.activeFrames = m.activeFrames ∧ (r m).2.frames = m.frames

/-- Whether a computation inside an evaluation restores what evaluation restores. -/
def Restores {α : Type} (r : Run α) : Prop :=
  ∀ m : Machine, m.Nested → m.Restored (r m).2

/-- Whether a computation restores all this and, if it answers, leaves no frame beyond the active
ones where it found none. -/
structure Tidy {α : Type} (r : Run α) : Prop where
  restores : Restores r
  bare : ∀ m : Machine, m.Nested → m.Bare → ∀ a, (r m).1 = .ok a → (r m).2.Bare

namespace Run

variable {α β : Type}

theorem framed_eq (frame : Frame) (r : Run α) (m : Machine) :
    framed frame r m =
      match r (m.calling frame) with
      | (.ok a, m') =>
          (.ok a,
            { m' with frames := m'.frames.take m.activeFrames, activeFrames := m.activeFrames })
      | (o, m') => (o, { m' with activeFrames := m.activeFrames }) :=
  rfl

theorem evaluation_eq (scope : Option Nat) (r : Run α) (m : Machine) :
    evaluation scope r m =
      ((r (m.evaluating scope)).1,
        { (r (m.evaluating scope)).2 with
          scope := m.scope
          depth := (r (m.evaluating scope)).2.depth - 1 }) :=
  rfl

theorem inChild_eq (r : Run α) (m : Machine) :
    inChild r m = ((r m.opening).1, { (r m.opening).2 with scope := m.scope }) :=
  rfl

end Run

namespace Inert

variable {α β : Type} {r : Run α}

theorem pure (a : α) : Inert (Run.pure a) := fun _ => ⟨rfl, rfl, rfl, rfl⟩

theorem fail (f : Failure) : Inert (Run.fail f : Run α) := fun _ => ⟨rfl, rfl, rfl, rfl⟩

theorem unfinished : Inert (Run.unfinished : Run α) := fun _ => ⟨rfl, rfl, rfl, rfl⟩

theorem read : Inert Run.read := fun _ => ⟨rfl, rfl, rfl, rfl⟩

theorem visit (v : Value) : Inert (Run.visit v) := fun _ => ⟨rfl, rfl, rfl, rfl⟩

theorem traceLine (line : String) : Inert (Run.traceLine line) := by
  intro m
  by_cases h : m.tracing <;> simp [Run.traceLine, Run.modify, h]

theorem ofEffect (e : Effect α) : Inert (Run.ofEffect e) := fun _ => ⟨rfl, rfl, rfl, rfl⟩

theorem lookup (name : String) : Inert (Run.lookup name) := fun _ => ⟨rfl, rfl, rfl, rfl⟩

theorem bindAt (i : Nat) (name : String) (v : Value) : Inert (Run.bindAt i name v) := by
  intro m
  unfold Run.bindAt
  split <;> exact ⟨rfl, rfl, rfl, rfl⟩

theorem bindHere (name : String) (v : Value) : Inert (Run.bindHere name v) :=
  fun m => bindAt m.scope name v m

theorem bind {k : α → Run β} (h : Inert r) (hk : ∀ a, Inert (k a)) : Inert (r >>= k) := by
  intro m
  have hfirst := h m
  change (Run.bind r k m).2.scope = _ ∧ (Run.bind r k m).2.depth = _ ∧
    (Run.bind r k m).2.activeFrames = _ ∧ (Run.bind r k m).2.frames = _
  unfold Run.bind
  cases hr : r m with
  | mk o m' =>
      rw [hr] at hfirst
      obtain ⟨hscope, hdepth, hactive, hframes⟩ := hfirst
      cases o with
      | ok a =>
          obtain ⟨hscope', hdepth', hactive', hframes'⟩ := hk a m'
          exact ⟨hscope'.trans hscope, hdepth'.trans hdepth, hactive'.trans hactive,
            hframes'.trans hframes⟩
      | failed f => exact ⟨hscope, hdepth, hactive, hframes⟩
      | unfinished => exact ⟨hscope, hdepth, hactive, hframes⟩

theorem mapAll {γ : Type} {f : γ → Run α} (h : ∀ x, Inert (f x)) (xs : List γ) :
    Inert (Run.mapAll f xs) := by
  induction xs with
  | nil => exact pure []
  | cons x xs ih => exact (h x).bind fun y => ih.bind fun ys => pure (y :: ys)

theorem bindAll (bindings : List (String × Value)) :
    Inert (Run.mapAll (fun (b : String × Value) => Run.bindHere b.1 b.2) bindings) := by
  have hone : ∀ b : String × Value, Inert (Run.bindHere b.1 b.2) := fun b => bindHere b.1 b.2
  exact mapAll hone bindings

theorem addScope (parent : Option Nat) (bindings : List (String × Value)) :
    Inert (Run.addScope parent bindings) := by
  intro m
  have hone : ∀ b : String × Value, Inert (Run.bindAt (m.scopes.add parent).1 b.1 b.2) :=
    fun b => bindAt _ b.1 b.2
  exact ((mapAll hone bindings).bind fun _ => pure (m.scopes.add parent).1)
    { m with scopes := (m.scopes.add parent).2 }

theorem scopeOf (r : ScopeRef) : Inert (Run.scopeOf r) := by
  induction r with
  | absent => exact pure none
  | here => exact fun _ => ⟨rfl, rfl, rfl, rfl⟩
  | parent r ih =>
      rw [Run.scopeOf]
      refine ih.bind fun found => ?_
      cases found with
      | none => exact fail _
      | some i => exact fun _ => ⟨rfl, rfl, rfl, rfl⟩
  | child r bindings ih =>
      rw [Run.scopeOf]
      exact ih.bind fun parent => (addScope parent bindings).bind fun i => pure (some i)

theorem restores (h : Inert r) : Restores r := by
  intro m _
  obtain ⟨hscope, hdepth, hactive, hframes⟩ := h m
  exact ⟨hscope, hdepth, hactive, by rw [hframes]⟩

theorem tidy (h : Inert r) : Tidy r where
  restores := h.restores
  bare m _ hbare _ _ := by
    obtain ⟨-, -, hactive, hframes⟩ := h m
    rw [Machine.Bare, hactive, hframes]
    exact hbare

end Inert

namespace Restores

variable {α β : Type} {r : Run α}

theorem bind {k : α → Run β} (h : Restores r) (hk : ∀ a, Restores (k a)) :
    Restores (r >>= k) := by
  intro m hm
  have hfirst := h m hm
  change m.Restored (Run.bind r k m).2
  unfold Run.bind
  cases hr : r m with
  | mk o m' =>
      rw [hr] at hfirst
      cases o with
      | ok a => exact hfirst.trans (hk a m' (hfirst.nested hm))
      | failed f => exact hfirst
      | unfinished => exact hfirst

theorem framed (h : Restores r) (frame : Frame) : Restores (Run.framed frame r) := by
  intro m hm
  have hcall := h (m.calling frame) (hm.calling frame)
  rw [Run.framed_eq]
  cases hr : r (m.calling frame) with
  | mk o m' =>
      rw [hr] at hcall
      cases o with
      | ok a => exact hcall.of_answered_calling hm
      | failed f => exact hcall.of_calling hm
      | unfinished => exact hcall.of_calling hm

theorem evaluation (h : Restores r) (scope : Option Nat) : Restores (Run.evaluation scope r) :=
  fun m hm => hm.restored_evaluating (h (m.evaluating scope) (hm.evaluating scope))

theorem inChild (h : Restores r) : Restores (Run.inChild r) :=
  fun m hm => (h m.opening hm.opening).of_opening

theorem recover {handler : Failure → Run α} (h : Restores r) (hh : ∀ f, Restores (handler f)) :
    Restores (Run.recover r handler) := by
  intro m hm
  have hbody := h m hm
  unfold Run.recover
  cases hr : r m with
  | mk o m' =>
      rw [hr] at hbody
      cases o with
      | ok a => exact hbody
      | unfinished => exact hbody
      | failed f =>
          dsimp only
          split
          · exact hbody.trans (hh f m' (hbody.nested hm))
          · exact hbody

end Restores

namespace Tidy

variable {α β : Type} {r : Run α}

theorem bind {k : α → Run β} (h : Tidy r) (hk : ∀ a, Tidy (k a)) : Tidy (r >>= k) where
  restores := h.restores.bind fun a => (hk a).restores
  bare m hm hbare b hb := by
    have hfirst := h.restores m hm
    have htidy := h.bare m hm hbare
    change (Run.bind r k m).1 = .ok b at hb
    change (Run.bind r k m).2.Bare
    unfold Run.bind at hb ⊢
    cases hr : r m with
    | mk o m' =>
        rw [hr] at hfirst htidy hb
        cases o with
        | ok a => exact (hk a).bare m' (hfirst.nested hm) (htidy a rfl) b hb
        | failed f => cases hb
        | unfinished => cases hb

theorem mapAll {γ : Type} {f : γ → Run α} (h : ∀ x, Tidy (f x)) (xs : List γ) :
    Tidy (Run.mapAll f xs) := by
  induction xs with
  | nil => exact (Inert.pure []).tidy
  | cons x xs ih => exact (h x).bind fun y => ih.bind fun ys => (Inert.pure (y :: ys)).tidy

theorem framed (h : Restores r) (frame : Frame) : Tidy (Run.framed frame r) where
  restores := h.framed frame
  bare m _ _ a ha := by
    rw [Run.framed_eq] at ha ⊢
    cases hr : r (m.calling frame) with
    | mk o m' =>
        rw [hr] at ha
        cases o with
        | ok b => exact List.length_take_le _ _
        | failed f => cases ha
        | unfinished => cases ha

end Tidy

namespace Setting

/-- Whether evaluation with some fuel restores what it has to. Only the body of a primitive can
answer with frames left over, which go with the frame of its call. -/
structure InOrder (env : Setting) (fuel : Nat) : Prop where
  dispatch : ∀ x, Tidy (env.dispatch fuel x)
  invoke : ∀ e, Tidy (env.invoke fuel e)
  perform : ∀ a, Restores (env.perform fuel a)
  invokeNode : ∀ x, Tidy (env.invokeNode fuel x)

section Step

variable {env : Setting} {fuel : Nat}

theorem tidy_callMember (frame : Frame) (member : Member) (arguments : List Value) :
    Tidy (env.callMember frame member arguments) :=
  .framed (Inert.ofEffect _).restores frame

theorem tidy_invokeStatic {evaluate : Node → Run Value} (h : ∀ x, Tidy (evaluate x))
    (path : List String) (member : String) (e : Invocation) :
    Tidy (env.invokeStatic evaluate path member e) := by
  unfold invokeStatic
  refine (Inert.ofEffect _).tidy.bind fun found => ?_
  cases found with
  | none => exact (Inert.fail _).tidy
  | some target =>
      refine (Tidy.mapAll h e.parameters).bind fun arguments => ?_
      refine (Inert.visit _).tidy.bind fun _ => (Inert.ofEffect _).tidy.bind fun found => ?_
      cases found with
      | none => exact (Inert.fail _).tidy
      | some m => exact (Inert.traceLine _).tidy.bind fun _ => tidy_callMember _ m arguments

theorem tidy_invokeInstance {evaluate : Node → Run Value} (h : ∀ x, Tidy (evaluate x))
    (member : String) (e : Invocation) : Tidy (env.invokeInstance evaluate member e) := by
  unfold invokeInstance
  cases e.parameters with
  | nil => exact (Inert.fail _).tidy
  | cons x rest =>
      refine (h x).bind fun receiver => (Inert.visit _).tidy.bind fun _ => ?_
      split
      · exact (Inert.fail _).tidy
      · refine (Tidy.mapAll h rest).bind fun arguments => (Inert.visit _).tidy.bind fun _ => ?_
        refine (Inert.ofEffect _).tidy.bind fun found => ?_
        cases found with
        | none => exact (Inert.fail _).tidy
        | some m => exact (Inert.traceLine _).tidy.bind fun _ => tidy_callMember _ m _

theorem tidy_dispatch_succ (h : env.InOrder fuel) (x : Node) :
    Tidy (env.dispatch (fuel + 1) x) := by
  rw [dispatch.eq_def]
  refine (Inert.visit _).tidy.bind fun _ => ?_
  cases x with
  | error message span => exact (Inert.fail _).tidy
  | literal value span => exact (Inert.pure _).tidy
  | identifier name span => exact (Inert.lookup name).tidy
  | list xs span => exact (Tidy.mapAll h.dispatch xs).bind fun vs => (Inert.ofEffect _).tidy
  | quote inner span => exact (Inert.pure _).tidy
  | invocation head parameters span => exact h.invoke _
  | instanceMember member span => exact (Inert.fail _).tidy
  | staticMember path member span => exact (Inert.fail _).tidy

theorem tidy_invoke_succ (h : env.InOrder fuel) (e : Invocation) :
    Tidy (env.invoke (fuel + 1) e) := by
  rw [invoke]
  cases e.head with
  | identifier name span =>
      dsimp only
      cases env.primitives.find? name with
      | none => exact (Inert.fail _).tidy
      | some p => exact (Inert.traceLine _).tidy.bind fun _ => .framed (h.perform (p e)) _
  | staticMember path member span => exact tidy_invokeStatic h.dispatch path member e
  | instanceMember member span => exact tidy_invokeInstance h.dispatch member e
  | _ => exact (Inert.fail _).tidy

theorem tidy_invokeNode_succ (h : env.InOrder fuel) (x : Node) :
    Tidy (env.invokeNode (fuel + 1) x) := by
  cases x with
  | invocation head parameters span =>
      rw [invokeNode]
      exact h.invoke _
  | _ => exact (Inert.fail _).tidy

theorem restores_perform_succ (h : env.InOrder fuel) (a : Action) :
    Restores (env.perform (fuel + 1) a) := by
  rw [perform.eq_def]
  cases a with
  | done v => exact (Inert.ofEffect _).restores
  | fail f => exact (Inert.fail f).restores
  | eval x next =>
      have hx := (h.dispatch x).restores.evaluation none
      exact hx.bind fun v => (Inert.ofEffect _).restores.bind fun v => h.perform (next v)
  | evalIn r x next =>
      refine (Inert.scopeOf r).restores.bind fun scope => ?_
      have hx := (h.dispatch x).restores.evaluation scope
      exact hx.bind fun v => (Inert.ofEffect _).restores.bind fun v => h.perform (next v)
  | invoke x next =>
      have hx := (h.invokeNode x).restores
      exact hx.bind fun v => (Inert.ofEffect _).restores.bind fun v => h.perform (next v)
  | within bindings body next =>
      have hblock := ((Inert.bindAll bindings).restores.bind fun _ => h.perform body).inChild
      exact hblock.bind fun v => h.perform (next v)
  | bind name v next => exact (Inert.bindHere name v).restores.bind fun _ => h.perform next
  | recover body handler next =>
      have hrecover := (h.perform body).recover fun f => h.perform (handler f)
      exact hrecover.bind fun v => h.perform (next v)
  | settle vs next => exact (Inert.ofEffect _).restores.bind fun s => h.perform _
  | view next => exact Inert.read.restores.bind fun m => h.perform _
  | running next => exact Inert.read.restores.bind fun m => h.perform _
  | effect computation next =>
      refine (Inert.ofEffect computation).restores.bind fun v => ?_
      exact (Inert.ofEffect _).restores.bind fun v => h.perform (next v)
  | note v next => exact (Inert.ofEffect _).restores.bind fun _ => h.perform next
  | trace line next => exact (Inert.traceLine line).restores.bind fun _ => h.perform next

theorem inOrder (env : Setting) (fuel : Nat) : env.InOrder fuel := by
  -- All four at once, since each function calls the others with the fuel that is left.
  induction fuel with
  | zero =>
      constructor
      · exact fun _ => Inert.unfinished.tidy
      · exact fun _ => Inert.unfinished.tidy
      · exact fun _ => Inert.unfinished.restores
      · exact fun _ => Inert.unfinished.tidy
  | succ fuel ih =>
      constructor
      · exact tidy_dispatch_succ ih
      · exact tidy_invoke_succ ih
      · exact restores_perform_succ ih
      · exact tidy_invokeNode_succ ih

end Step

theorem restored_evaluation (env : Setting) (fuel : Nat) (x : Node) (scope : Option Nat)
    {m : Machine} (hactive : m.activeFrames ≤ m.frames.length)
    (hdepth : m.depth = 0 → m.activeFrames = 0) :
    m.Restored (Run.evaluation scope (env.dispatch fuel x) m).2 :=
  Machine.Restored.of_evaluating
    (((env.inOrder fuel).dispatch x).restores _ (Machine.nested_evaluating hactive hdepth scope))
    hdepth

/-- From every state that has its active frames, and none of them outside an evaluation, an
evaluation restores the scope, the depth and the active frames, whether it answers, fails or runs
out of fuel; and an outermost one that answers leaves no frames. The primitives are any, so they may
evaluate, open scopes and recover from failures as they like. -/
theorem evaluation_restores (env : Setting) (fuel : Nat) (x : Node) (scope : Option Nat)
    (m : Machine) (hactive : m.activeFrames ≤ m.frames.length)
    (hdepth : m.depth = 0 → m.activeFrames = 0) :
    m.Restored (Run.evaluation scope (env.dispatch fuel x) m).2 ∧
      (m.depth = 0 → ∀ v, (Run.evaluation scope (env.dispatch fuel x) m).1 = .ok v →
        (Run.evaluation scope (env.dispatch fuel x) m).2.frames = []) := by
  have hrestored := restored_evaluation env fuel x scope hactive hdepth
  refine ⟨hrestored, ?_⟩
  intro hm v hv
  have hnested := Machine.nested_evaluating hactive hdepth scope
  have hbare : (m.evaluating scope).Bare := by
    rw [Machine.Bare, show (m.evaluating scope).frames = [] from if_pos hm]
    exact Nat.zero_le _
  have hafter : (Run.evaluation scope (env.dispatch fuel x) m).2.Bare :=
    ((env.inOrder fuel).dispatch x).bare _ hnested hbare v hv
  rw [Machine.Bare, hrestored.activeFrames_eq, hdepth hm] at hafter
  exact List.eq_nil_of_length_eq_zero (Nat.le_zero.mp hafter)

open scoped Sample

/-- A failure is recovered from by a further call; frames of an earlier failure are forgotten. -/
theorem evaluation_recovers_and_leaves_no_frames :
    let env : Setting := ⟨Table.host, Primitive.standard ++ [("try", Primitive.attempt)]⟩
    let one : Node := .literal (.integer 1) .absent
    let x : Node := .invocation (.identifier "try" .absent)
      [.invocation (.identifier "if" .absent) [one, one, one] .absent,
        .invocation (.identifier "eq" .absent) [one, one] .absent] .absent
    let m : Machine := { Machine.initial with frames := [⟨"if", [], x⟩] }
    (Run.evaluation none (env.dispatch 12 x) m).1.isAnswer = true ∧
      (Run.evaluation none (env.dispatch 12 x) m).2.frames = [] := by
  intro env one x m
  have hanswer : (Run.evaluation none (env.dispatch 12 x) m).1.isAnswer = true := by
    decide +kernel
  obtain ⟨v, hv⟩ := Outcome.exists_of_isAnswer hanswer
  have h := evaluation_restores env 12 x none m (Nat.zero_le _) fun _ => rfl
  exact ⟨hanswer, h.2 rfl v hv⟩

end Setting

end HostedLisp
