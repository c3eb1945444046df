import HostedLisp.Proofs.Evaluation.Restoration
import HostedLisp.Proofs.Evaluation.Reference

/-!
The frames that a failed evaluation leaves. Main statement: they are those of the calls that were
running where the failure arose, outermost first, and after them those of a failure that the
innermost of these calls had recovered from without beginning another call since. So they are exact
unless a primitive recovers from a failed call and then fails before it calls anything.
-/

namespace HostedLisp

/-- The calls at a point of an evaluation: those that are running, outermost first, and those that
ran where a failure arose which the innermost running one has recovered from, as long as no call has
begun since. -/
structure Calls where
  running : List Frame
  recovered : List Frame

namespace Calls

/-- The calls where nothing has been called yet. -/
def outermost : Calls := ⟨[], []⟩

def all (c : Calls) : List Frame := c.running ++ c.recovered

/-- The calls after a recovery from a failure at some point, where `c` are those at the start of
what failed. -/
def recoverFrom (c failed : Calls) : Calls :=
  ⟨c.running, failed.all.drop c.running.length⟩

end Calls

/-- How the calls change in a computation that starts in a machine. They are those at its end, which
is where its failure arises if it fails. Whatever a computation does not call itself runs in the
calls in which it was started, so the frames of the machine play no part. -/
abbrev Course := Calls → Machine → Calls

namespace Course

variable {α β : Type}

/-- A computation that calls nothing. -/
def still : Course := fun c _ => c

/-- Two computations in sequence. -/
def andThen (r : Run α) (first : Course) (second : α → Course) : Course := fun c m =>
  match r m with
  | (.ok a, m') => second a (first c m) m'
  | _ => first c m

/-- A computation that calls nothing, and another one after it. -/
def after (r : Run α) (second : α → Course) : Course := andThen r still second

def mapAll (f : α → Run β) (course : α → Course) : List α → Course
  | [] => still
  | x :: xs => andThen (f x) (course x) fun _ => mapAll f course xs

/-- A computation in a machine that is entered for it. -/
def entering (enter : Machine → Machine) (body : Course) : Course := fun c m => body c (enter m)

/-- A call with its frame. It is running until it answers; if it does not, its end is where its body
ends. -/
def call (frame : Frame) (r : Run α) (body : Course) : Course := fun c m =>
  match r (m.calling frame) with
  | (.ok _, _) => ⟨c.running, []⟩
  | _ => body ⟨c.running ++ [frame], []⟩ (m.calling frame)

def recover (r : Run α) (body : Course) (handler : Failure → Course) : Course := fun c m =>
  match r m with
  | (.failed f, m') => if f.isEvaluation then handler f (c.recoverFrom (body c m)) m' else body c m
  | _ => body c m

end Course

namespace Setting

open Course

def courseOfMember (env : Setting) (frame : Frame) (member : Member) (arguments : List Value) :
    Course :=
  call frame (Run.ofEffect (env.memberValue member arguments)) still

def courseOfStatic (env : Setting) (evaluate : Node → Run Value) (course : Node → Course)
    (path : List String) (member : String) (e : Invocation) : Course :=
  after (Run.ofEffect (env.host.resolveType path)) fun
    | none => still
    | some target =>
        andThen (Run.mapAll evaluate e.parameters) (mapAll evaluate course e.parameters)
          fun arguments =>
        after (Run.visit (.code e.node)) fun _ =>
        after (env.resolveMember target member none) fun
          | none => still
          | some m =>
              after (Run.traceLine ("static " ++ Node.dotted path ++ " " ++ member ++ " argc " ++
                toString arguments.length)) fun _ =>
              env.courseOfMember ⟨e.head.headName, arguments, e.node⟩ m arguments

def courseOfInstance (env : Setting) (evaluate : Node → Run Value) (course : Node → Course)
    (member : String) (e : Invocation) : Course :=
  match e.parameters with
  | [] => still
  | x :: rest =>
      andThen (evaluate x) (course x) fun receiver =>
      after (Run.visit (.code e.node)) fun _ =>
      if receiver.isNull then still
      else
        andThen (Run.mapAll evaluate rest) (mapAll evaluate course rest) fun arguments =>
        after (Run.visit (.code e.node)) fun _ =>
        after (env.resolveMember receiver member (some (arguments.map Value.type))) fun
          | none => still
          | some m =>
              after (Run.traceLine ("instance " ++ receiver.type.name ++ " " ++ member ++
                " arg_types " ++ namesText ((arguments.map Value.type).map ValueType.name)))
                fun _ =>
              env.courseOfMember ⟨e.head.headName, receiver :: arguments, e.node⟩ m arguments

mutual

/-- The calls in the evaluation of a node. -/
def course (env : Setting) : Nat → Node → Course
  | 0, _ => still
  | fuel + 1, x =>
      after (Run.visit (.code x)) fun _ =>
      match x with
      | .list xs _ => mapAll (env.dispatch fuel) (course env fuel) xs
      | .invocation head parameters span => courseOfInvocation env fuel ⟨head, parameters, span⟩
      | _ => still

def courseOfInvocation (env : Setting) : Nat → Invocation → Course
  | 0, _ => still
  | fuel + 1, e =>
      match e.head with
      | .identifier name _ =>
          match env.primitives.find? name with
          | none => still
          | some p =>
              after (Run.traceLine ("extern " ++ name ++ " argc " ++
                toString e.parameters.length)) fun _ =>
              call ⟨name, e.parameters.map Value.code, e.node⟩ (env.perform fuel (p e))
                (courseOfAction env fuel (p e))
      | .staticMember path member _ =>
          env.courseOfStatic (env.dispatch fuel) (course env fuel) path member e
      | .instanceMember member _ =>
          env.courseOfInstance (env.dispatch fuel) (course env fuel) member e
      | _ => still

def courseOfAction (env : Setting) : Nat → Action → Course
  | 0, _ => still
  | fuel + 1, a =>
      match a with
      | .done _ => still
      | .fail _ => still
      | .eval x next =>
          andThen (Run.evaluation none (env.dispatch fuel x))
            (entering (Machine.evaluating · none) (course env fuel x)) fun v =>
          after (Run.ofEffect (Effect.settle v)) fun v => courseOfAction env fuel (next v)
      | .evalIn r x next =>
          after (Run.scopeOf r) fun scope =>
          andThen (Run.evaluation scope (env.dispatch fuel x))
            (entering (Machine.evaluating · scope) (course env fuel x)) fun v =>
          after (Run.ofEffect (Effect.settle v)) fun v => courseOfAction env fuel (next v)
      | .invoke x next =>
          andThen (env.invokeNode fuel x) (courseOfInvokedNode env fuel x) fun v =>
          after (Run.ofEffect (Effect.settle v)) fun v => courseOfAction env fuel (next v)
      | .within bindings body next =>
          andThen
            (Run.inChild do
              let _ ← Run.mapAll (fun (b : String × Value) => Run.bindHere b.1 b.2) bindings
              env.perform fuel body)
            (entering Machine.opening <|
              after (Run.mapAll (fun b : String × Value => Run.bindHere b.1 b.2) bindings) fun _ =>
              courseOfAction env fuel body)
            fun v => courseOfAction env fuel (next v)
      | .bind name v next =>
          after (Run.bindHere name v) fun _ => courseOfAction env fuel next
      | .recover body handler next =>
          andThen (Run.recover (env.perform fuel body) fun f => env.perform fuel (handler f))
            (recover (env.perform fuel body) (courseOfAction env fuel body) fun f =>
              courseOfAction env fuel (handler f))
            fun v => courseOfAction env fuel (next v)
      | .settle vs next =>
          after (Run.ofEffect Effect.read) fun s =>
          courseOfAction env fuel (next (s.settleAll vs))
      | .view next =>
          after Run.read fun m =>
          courseOfAction env fuel (next ((m.scopes.chain m.scope).flatten.map fun e =>
            (e.1, m.store.settle e.2)))
      | .running next =>
          after Run.read fun m => courseOfAction env fuel (next (m.frames.map Frame.name))
      | .effect computation next =>
          after (Run.ofEffect computation) fun v =>
          after (Run.ofEffect (Effect.adopt v)) fun v => courseOfAction env fuel (next v)
      | .note v next =>
          after (Run.ofEffect (Effect.modify fun s => s.record (.noted v))) fun _ =>
          courseOfAction env fuel next
      | .trace line next =>
          after (Run.traceLine line) fun _ => courseOfAction env fuel next

def courseOfInvokedNode (env : Setting) : Nat → Node → Course
  | 0, _ => still
  | fuel + 1, x =>
      match x with
      | .invocation head parameters span => courseOfInvocation env fuel ⟨head, parameters, span⟩
      | _ => still

end

end Setting

/-- Whether the frames of the machine are those of the calls, and the active ones those of the
running calls. -/
structure Machine.Holds (m : Machine) (c : Calls) : Prop where
  frames_eq : m.frames = c.all
  activeFrames_eq : m.activeFrames = c.running.length

/-- Whether a computation that was started in `m`, with the calls `c`, ends with the calls `c'`. It
may end inside of further calls if it fails, and never outside of those it was started in. -/
structure Ends {α : Type} (m : Machine) (c : Calls) (result : Outcome α × Machine) (c' : Calls) :
    Prop where
  restored : m.Restored result.2
  frames_eq : result.2.frames = c'.all
  running_prefix : c.running <+: c'.running
  running_eq : result.1.isAnswer = true → c'.running = c.running

def Follows {α : Type} (r : Run α) (course : Course) : Prop :=
  ∀ m c, m.Nested → m.Holds c → Ends m c (r m) (course c m)

namespace Ends

variable {α β : Type} {m m' : Machine} {c c' c'' : Calls}

theorem holds {o : Outcome α} (h : Ends m c (o, m') c') (hc : m.Holds c)
    (ho : o.isAnswer = true) : m'.Holds c' where
  frames_eq := h.frames_eq
  activeFrames_eq := by
    rw [h.restored.activeFrames_eq, hc.activeFrames_eq, h.running_eq ho]

theorem trans {o : Outcome α} {result : Outcome β × Machine} (h : Ends m c (o, m') c')
    (ho : o.isAnswer = true) (h' : Ends m' c' result c'') : Ends m c result c'' where
  restored := h.restored.trans h'.restored
  frames_eq := h'.frames_eq
  running_prefix := h.running_prefix.trans h'.running_prefix
  running_eq hresult := (h'.running_eq hresult).trans (h.running_eq ho)

theorem of_not_answer {o : Outcome α} {o' : Outcome β} (h : Ends m c (o, m') c')
    (ho : o'.isAnswer = false) : Ends m c (o', m') c' where
  restored := h.restored
  frames_eq := h.frames_eq
  running_prefix := h.running_prefix
  running_eq := by simp [ho]

end Ends

theorem Inert.follows {α : Type} {r : Run α} (h : Inert r) : Follows r Course.still := by
  intro m c hm hc
  obtain ⟨-, -, -, hframes⟩ := h m
  exact ⟨h.restores m hm, hframes.trans hc.frames_eq, List.prefix_refl _, fun _ => rfl⟩

namespace Follows

variable {α β : Type} {r : Run α} {course : Course}

theorem bind {k : α → Run β} {next : α → Course} (h : Follows r course)
    (hk : ∀ a, Follows (k a) (next a)) : Follows (r >>= k) (Course.andThen r course next) := by
  intro m c hm hc
  have hfirst := h m c hm hc
  change Ends m c (Run.bind r k m) _
  unfold Run.bind Course.andThen
  cases hr : r m with
  | mk o m' =>
      rw [hr] at hfirst
      cases o with
      | ok a =>
          have hsecond := hk a m' _ (hfirst.restored.nested hm) (hfirst.holds hc rfl)
          exact hfirst.trans rfl hsecond
      | failed f => exact hfirst.of_not_answer rfl
      | unfinished => exact hfirst.of_not_answer rfl

theorem after {k : α → Run β} {next : α → Course} (h : Follows r Course.still)
    (hk : ∀ a, Follows (k a) (next a)) : Follows (r >>= k) (Course.after r next) :=
  h.bind hk

theorem bind_still {k : α → Run β} (h : Follows r course)
    (hk : ∀ a, Follows (k a) Course.still) : Follows (r >>= k) course := by
  have hcourse : Course.andThen r course (fun _ => Course.still) = course := by
    funext c m
    unfold Course.andThen
    split <;> rfl
  have hbind := h.bind hk
  rwa [hcourse] at hbind

theorem mapAll {γ : Type} {f : γ → Run α} {o : γ → Course} (h : ∀ x, Follows (f x) (o x))
    (xs : List γ) : Follows (Run.mapAll f xs) (Course.mapAll f o xs) := by
  induction xs with
  | nil => exact (Inert.pure []).follows
  | cons x xs ih => exact (h x).bind fun y => bind_still ih fun ys => (Inert.pure (y :: ys)).follows

theorem evaluation (h : Follows r course) (scope : Option Nat) :
    Follows (Run.evaluation scope r) (Course.entering (Machine.evaluating · scope) course) := by
  intro m c hm hc
  have hholds : (m.evaluating scope).Holds c :=
    ⟨(hm.frames_evaluating scope).trans hc.frames_eq, hc.activeFrames_eq⟩
  have hin := h _ c (hm.evaluating scope) hholds
  exact ⟨hm.restored_evaluating hin.restored, hin.frames_eq, hin.running_prefix, hin.running_eq⟩

theorem inChild (h : Follows r course) :
    Follows (Run.inChild r) (Course.entering Machine.opening course) := by
  intro m c hm hc
  have hin := h m.opening c hm.opening ⟨hc.frames_eq, hc.activeFrames_eq⟩
  exact ⟨hin.restored.of_opening, hin.frames_eq, hin.running_prefix, hin.running_eq⟩

theorem framed (h : Follows r course) (frame : Frame) :
    Follows (Run.framed frame r) (Course.call frame r course) := by
  intro m c hm hc
  have htake : m.frames.take m.activeFrames = c.running := by
    rw [hc.frames_eq, hc.activeFrames_eq, Calls.all, List.take_left]
  -- Frames left over from a recovery are dropped, so the body starts from running calls alone.
  have hholds : (m.calling frame).Holds ⟨c.running ++ [frame], []⟩ := by
    constructor
    · simp [Machine.calling, htake, Calls.all]
    · simp [Machine.calling, hc.activeFrames_eq]
  have hin := h _ _ (hm.calling frame) hholds
  have hprefix : c.running <+: c.running ++ [frame] := List.prefix_append _ _
  rw [Run.framed_eq]
  unfold Course.call
  cases hr : r (m.calling frame) with
  | mk o m' =>
      rw [hr] at hin
      cases o with
      | ok a =>
          refine ⟨hin.restored.of_answered_calling hm, ?_, List.prefix_refl _, fun _ => rfl⟩
          dsimp only
          rw [hin.restored.take_frames_of_calling hm, htake, Calls.all, List.append_nil]
      | failed f =>
          exact ⟨hin.restored.of_calling hm, hin.frames_eq, hprefix.trans hin.running_prefix,
            fun h => by cases h⟩
      | unfinished =>
          exact ⟨hin.restored.of_calling hm, hin.frames_eq, hprefix.trans hin.running_prefix,
            fun h => by cases h⟩

/-- The calls after a recovery are those that the frames left by the failure stand for. -/
theorem all_recoverFrom {c c' : Calls} (h : c.running <+: c'.running) :
    (c.recoverFrom c').all = c'.all := by
  obtain ⟨inner, hinner⟩ := h
  rw [Calls.recoverFrom, Calls.all, Calls.all, ← hinner, List.append_assoc, List.drop_left]

theorem recover {handler : Failure → Run α} {next : Failure → Course} (h : Follows r course)
    (hh : ∀ f, Follows (handler f) (next f)) :
    Follows (Run.recover r handler) (Course.recover r course next) := by
  intro m c hm hc
  have hbody := h m c hm hc
  unfold Run.recover Course.recover
  cases hr : r m with
  | mk o m' =>
      rw [hr] at hbody
      cases o with
      | ok a => exact hbody
      | unfinished => exact hbody
      | failed f =>
          dsimp only
          split
          · have hholds : m'.Holds (c.recoverFrom (course c m)) := by
              refine ⟨?_, hbody.restored.activeFrames_eq.trans hc.activeFrames_eq⟩
              rw [all_recoverFrom hbody.running_prefix]
              exact hbody.frames_eq
            have hhandler := hh f m' _ (hbody.restored.nested hm) hholds
            exact ⟨hbody.restored.trans hhandler.restored, hhandler.frames_eq,
              hhandler.running_prefix, hhandler.running_eq⟩
          · exact hbody

end Follows

namespace Setting

/-- Whether evaluation with some fuel leaves the frames of the calls at its end. -/
structure KeepsTrack (env : Setting) (fuel : Nat) : Prop where
  dispatch : ∀ x, Follows (env.dispatch fuel x) (env.course fuel x)
  invoke : ∀ e, Follows (env.invoke fuel e) (env.courseOfInvocation fuel e)
  perform : ∀ a, Follows (env.perform fuel a) (env.courseOfAction fuel a)
  invokeNode : ∀ x, Follows (env.invokeNode fuel x) (env.courseOfInvokedNode fuel x)

section Step

variable {env : Setting} {fuel : Nat}

theorem follows_callMember (frame : Frame) (member : Member) (arguments : List Value) :
    Follows (env.callMember frame member arguments) (env.courseOfMember frame member arguments) :=
  (Inert.ofEffect _).follows.framed frame

theorem follows_invokeStatic {evaluate : Node → Run Value} {course : Node → Course}
    (h : ∀ x, Follows (evaluate x) (course x)) (path : List String) (member : String)
    (e : Invocation) :
    Follows (env.invokeStatic evaluate path member e)
      (env.courseOfStatic evaluate course path member e) := by
  unfold invokeStatic courseOfStatic
  refine (Inert.ofEffect _).follows.after fun found => ?_
  cases found with
  | none => exact (Inert.fail _).follows
  | some target =>
      refine (Follows.mapAll h e.parameters).bind fun arguments => ?_
      refine (Inert.visit _).follows.after fun _ => (Inert.ofEffect _).follows.after fun found => ?_
      cases found with
      | none => exact (Inert.fail _).follows
      | some m => exact (Inert.traceLine _).follows.after fun _ => follows_callMember _ m arguments

theorem follows_invokeInstance {evaluate : Node → Run Value} {course : Node → Course}
    (h : ∀ x, Follows (evaluate x) (course x)) (member : String) (e : Invocation) :
    Follows (env.invokeInstance evaluate member e)
      (env.courseOfInstance evaluate course member e) := by
  unfold invokeInstance courseOfInstance
  cases e.parameters with
  | nil => exact (Inert.fail _).follows
  | cons x rest =>
      refine (h x).bind fun receiver => (Inert.visit _).follows.after fun _ => ?_
      split
      · exact (Inert.fail _).follows
      · refine (Follows.mapAll h rest).bind fun arguments =>
          (Inert.visit _).follows.after fun _ => ?_
        refine (Inert.ofEffect _).follows.after fun found => ?_
        cases found with
        | none => exact (Inert.fail _).follows
        | some m => exact (Inert.traceLine _).follows.after fun _ => follows_callMember _ m _

theorem follows_dispatch_succ (h : env.KeepsTrack fuel) (x : Node) :
    Follows (env.dispatch (fuel + 1) x) (env.course (fuel + 1) x) := by
  rw [dispatch.eq_def, course.eq_def]
  refine (Inert.visit _).follows.after fun _ => ?_
  cases x with
  | error message span => exact (Inert.fail _).follows
  | literal value span => exact (Inert.pure _).follows
  | identifier name span => exact (Inert.lookup name).follows
  | list xs span =>
      exact (Follows.mapAll h.dispatch xs).bind_still fun vs => (Inert.ofEffect _).follows
  | quote inner span => exact (Inert.pure _).follows
  | invocation head parameters span => exact h.invoke _
  | instanceMember member span => exact (Inert.fail _).follows
  | staticMember path member span => exact (Inert.fail _).follows

theorem follows_invoke_succ (h : env.KeepsTrack fuel) (e : Invocation) :
    Follows (env.invoke (fuel + 1) e) (env.courseOfInvocation (fuel + 1) e) := by
  rw [invoke, courseOfInvocation]
  cases e.head with
  | identifier name span =>
      dsimp only
      cases env.primitives.find? name with
      | none => exact (Inert.fail _).follows
      | some p => exact (Inert.traceLine _).follows.after fun _ => (h.perform (p e)).framed _
  | staticMember path member span => exact follows_invokeStatic h.dispatch path member e
  | instanceMember member span => exact follows_invokeInstance h.dispatch member e
  | _ => exact (Inert.fail _).follows

theorem follows_invokeNode_succ (h : env.KeepsTrack fuel) (x : Node) :
    Follows (env.invokeNode (fuel + 1) x) (env.courseOfInvokedNode (fuel + 1) x) := by
  cases x with
  | invocation head parameters span =>
      rw [invokeNode, courseOfInvokedNode]
      exact h.invoke _
  | _ => exact (Inert.fail _).follows

theorem follows_settled {r : Run Value} {o : Course} {k : Value → Run Value} {next : Value → Course}
    (h : Follows r o) (hk : ∀ v, Follows (k v) (next v)) :
    Follows (do k (← Run.ofEffect (Effect.settle (← r))))
      (o.andThen r fun v => .after (Run.ofEffect (Effect.settle v)) next) :=
  h.bind fun _ => (Inert.ofEffect _).follows.after hk

theorem follows_perform_succ (h : env.KeepsTrack fuel) (a : Action) :
    Follows (env.perform (fuel + 1) a) (env.courseOfAction (fuel + 1) a) := by
  rw [perform.eq_def, courseOfAction.eq_def]
  cases a with
  | done v => exact (Inert.ofEffect _).follows
  | fail f => exact (Inert.fail f).follows
  | eval x next =>
      exact follows_settled ((h.dispatch x).evaluation none) fun v => h.perform (next v)
  | evalIn r x next =>
      refine (Inert.scopeOf r).follows.after fun scope => ?_
      exact follows_settled ((h.dispatch x).evaluation scope) fun v => h.perform (next v)
  | invoke x next => exact follows_settled (h.invokeNode x) fun v => h.perform (next v)
  | within bindings body next =>
      have hbody := (Inert.bindAll bindings).follows.after fun _ => h.perform body
      exact hbody.inChild.bind fun v => h.perform (next v)
  | bind name v next => exact (Inert.bindHere name v).follows.after fun _ => h.perform next
  | recover body handler next =>
      have hrecover := (h.perform body).recover fun f => h.perform (handler f)
      exact hrecover.bind fun v => h.perform (next v)
  | settle vs next => exact (Inert.ofEffect _).follows.after fun s => h.perform _
  | view next => exact Inert.read.follows.after fun m => h.perform _
  | running next => exact Inert.read.follows.after fun m => h.perform _
  | effect computation next =>
      refine (Inert.ofEffect computation).follows.after fun v => ?_
      exact (Inert.ofEffect _).follows.after fun v => h.perform (next v)
  | note v next => exact (Inert.ofEffect _).follows.after fun _ => h.perform next
  | trace line next => exact (Inert.traceLine line).follows.after fun _ => h.perform next

theorem keepsTrack (env : Setting) (fuel : Nat) : env.KeepsTrack fuel := by
  -- All four at once, as the courses call each other just as the functions do.
  induction fuel with
  | zero =>
      constructor
      · exact fun _ => Inert.unfinished.follows
      · exact fun _ => Inert.unfinished.follows
      · exact fun _ => Inert.unfinished.follows
      · exact fun _ => Inert.unfinished.follows
  | succ fuel ih =>
      constructor
      · exact follows_dispatch_succ ih
      · exact follows_invoke_succ ih
      · exact follows_perform_succ ih
      · exact follows_invokeNode_succ ih

end Step

/-- The frames after an outermost evaluation are those of the calls that were running at its end,
outermost first, and then those of the failure that was recovered from last, if nothing was called
since. They are exact just if there are none of these. -/
theorem frames_eq_running_append_recovered (env : Setting) (fuel : Nat) (x : Node)
    (scope : Option Nat) (m : Machine) (hdepth : m.depth = 0) (hactive : m.activeFrames = 0) :
    let calls := env.course fuel x .outermost (m.evaluating scope)
    let after := (Run.evaluation scope (env.dispatch fuel x) m).2
    after.frames = calls.running ++ calls.recovered ∧
      (after.frames = calls.running ↔ calls.recovered = []) := by
  intro calls after
  have hnested : (m.evaluating scope).Nested :=
    Machine.nested_evaluating (hactive ▸ Nat.zero_le _) (fun _ => hactive) scope
  have hholds : (m.evaluating scope).Holds .outermost := ⟨if_pos hdepth, hactive⟩
  have hframes : after.frames = calls.running ++ calls.recovered :=
    ((env.keepsTrack fuel).dispatch x _ _ hnested hholds).frames_eq
  refine ⟨hframes, ?_⟩
  rw [hframes]
  exact List.append_right_eq_self

section Samples

/-- Recovery from a call that fails, here of a condition that is a number, by something else. -/
def recovering (fallback : Node) : Node :=
  let one : Node := .literal (.integer 1) .absent
  .invocation (.identifier "try" .absent)
    [.invocation (.identifier "if" .absent) [one, one, one] .absent, fallback] .absent

def samplePrimitives : Registry := Primitive.standard ++ [("try", Primitive.attempt)]

open scoped Sample

/-- A call after the recovery makes the frames exact. -/
theorem frames_after_recovery_by_call :
    let env : Setting := ⟨Table.host, samplePrimitives⟩
    let missing : Node := .identifier "missing" .absent
    let x := recovering (.invocation (.identifier "ne" .absent) [missing, missing] .absent)
    let after := (Run.evaluation none (env.dispatch 12 x) .initial).2
    after.frames = (env.course 12 x .outermost (Machine.initial.evaluating none)).running ∧
      after.frames.map Frame.name = ["try", "ne"] := by
  intro env missing x after
  have hrecovered :
      (env.course 12 x .outermost (Machine.initial.evaluating none)).recovered.length = 0 := by
    decide +kernel
  have hnames : after.frames.map Frame.name = ["try", "ne"] := by decide +kernel
  have h := frames_eq_running_append_recovered env 12 x none .initial rfl rfl
  exact ⟨h.2.mpr (List.eq_nil_of_length_eq_zero hrecovered), hnames⟩

/-- A failure after the recovery that no call comes before is reported with the frame of the call
recovered from. -/
theorem frames_after_recovery_by_name :
    let env : Setting := ⟨Table.host, samplePrimitives⟩
    let x := recovering (.identifier "missing" .absent)
    let after := (Run.evaluation none (env.dispatch 12 x) .initial).2
    after.frames.map Frame.name = ["try", "if"] ∧
      ¬ after.frames = (env.course 12 x .outermost (Machine.initial.evaluating none)).running := by
  intro env x after
  have hnames : after.frames.map Frame.name = ["try", "if"] := by decide +kernel
  have hrunning :
      (env.course 12 x .outermost (Machine.initial.evaluating none)).running.map Frame.name =
        ["try"] := by decide +kernel
  refine ⟨hnames, fun heq => ?_⟩
  rw [heq, hrunning] at hnames
  cases hnames

end Samples

end Setting

end HostedLisp
