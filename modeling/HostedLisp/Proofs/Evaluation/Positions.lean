import HostedLisp.Proofs.Evaluation.Erasure
import HostedLisp.Proofs.Evaluation.Restoration
import HostedLisp.Proofs.Value.PlainData
import HostedLisp.Script

namespace HostedLisp

namespace Node

mutual

/-- The node without the tokens that it was read from. What is quoted, and an error, keeps them. -/
def bare : Node → Node
  | invocation head parameters _ => invocation (bare head) (bareAll parameters) .absent
  | list items _ => list (bareAll items) .absent
  | identifier name _ => identifier name .absent
  | instanceMember member _ => instanceMember member .absent
  | staticMember path member _ => staticMember path member .absent
  | literal value _ => literal value .absent
  | x => x

/-- The nodes without the tokens that they were read from. -/
def bareAll : List Node → List Node
  | [] => []
  | x :: xs => bare x :: bareAll xs

end

mutual

@[simp] theorem bare_bare : (x : Node) → x.bare.bare = x.bare
  | invocation head parameters _ => by rw [bare, bare, bare_bare head, bareAll_bareAll parameters]
  | list items _ => by rw [bare, bare, bareAll_bareAll items]
  | identifier .. | instanceMember .. | staticMember .. | literal .. | quote .. | error .. => rfl
termination_by structural x => x

@[simp] theorem bareAll_bareAll : (xs : List Node) → bareAll (bareAll xs) = bareAll xs
  | [] => rfl
  | x :: xs => by rw [bareAll, bareAll, bare_bare x, bareAll_bareAll xs]
termination_by structural xs => xs

end

mutual

theorem text_bare : (x : Node) → x.bare.text = x.text
  | invocation head parameters _ => by
      rw [bare, text, text, text_bare head, restText_bareAll parameters]
  | list items _ => by rw [bare, text, text, itemsText_bareAll items]
  | identifier .. | instanceMember .. | staticMember .. | literal .. | quote .. | error .. => rfl
termination_by structural x => x

theorem itemsText_bareAll : (xs : List Node) → itemsText (bareAll xs) = itemsText xs
  | [] => rfl
  | x :: xs => by rw [bareAll, itemsText, itemsText, text_bare x, restText_bareAll xs]
termination_by structural xs => xs

theorem restText_bareAll : (xs : List Node) → restText (bareAll xs) = restText xs
  | [] => rfl
  | x :: xs => by rw [bareAll, restText, restText, text_bare x, restText_bareAll xs]
termination_by structural xs => xs

end

mutual

theorem isUnwritable_bare : (x : Node) → x.bare.isUnwritable = x.isUnwritable
  | invocation head parameters _ => by
      rw [bare, isUnwritable, isUnwritable, isUnwritable_bare head,
        anyUnwritable_bareAll parameters]
  | list items _ => anyUnwritable_bareAll items
  | identifier .. | instanceMember .. | staticMember .. | literal .. | quote .. | error .. => rfl
termination_by structural x => x

theorem anyUnwritable_bareAll : (xs : List Node) → anyUnwritable (bareAll xs) = anyUnwritable xs
  | [] => rfl
  | x :: xs => by
      rw [bareAll, anyUnwritable, anyUnwritable, isUnwritable_bare x, anyUnwritable_bareAll xs]
termination_by structural xs => xs

end

theorem headName_bare (x : Node) : x.bare.headName = x.headName := by
  cases x <;> rfl

theorem bareAll_eq_map (xs : List Node) : bareAll xs = xs.map bare := by
  induction xs with
  | nil => rfl
  | cons x xs ih => rw [bareAll, List.map_cons, ih]

end Node

/-- The value, which if it is code is bare. -/
def Value.bare : Value → Value
  | code x => code x.bare
  | v => v

theorem Value.source?_bare [HostClasses] (v : Value) : v.bare.source? = v.source? := by
  cases v with
  | code x =>
      rw [bare, source?, source?, Node.text?, Node.text?, Node.written, Node.written,
        x.isUnwritable_bare, x.text_bare]
  | _ => rfl

theorem Store.source?_settle_bare [HostClasses] (s : Store) (v : Value) :
    (s.settle v.bare).source? = (s.settle v).source? := by
  cases v with
  | code x =>
      rw [Value.bare, s.settle_of_update_eq fun _ => rfl, s.settle_of_update_eq fun _ => rfl]
      exact Value.source?_bare (.code x)
  | _ => rfl

def Frame.bare (f : Frame) : Frame := ⟨f.name, f.arguments.map Value.bare, f.callSite.bare⟩

theorem Frame.text?_bare [HostClasses] (f : Frame) (s : Store) : f.bare.text? s = f.text? s := by
  have hsources : (s.settleAll f.bare.arguments).mapM Value.source? =
      (s.settleAll f.arguments).mapM Value.source? := by
    rw [Store.settleAll, Store.settleAll, bare, List.mapM_map, List.mapM_map, List.mapM_map]
    exact congrArg (f.arguments.mapM ·) (funext s.source?_settle_bare)
  rw [text?, text?, hsources, bare]

/-- The state without what tells where the code was read that is running, or was when a failure
arose. -/
def Machine.bare (m : Machine) : Machine :=
  { m with frames := m.frames.map Frame.bare, current := none }

def Invocation.bare (e : Invocation) : Invocation :=
  ⟨e.head.bare, Node.bareAll e.parameters, .absent⟩

/-- The action that asks for bare nodes. -/
def Action.bare : Action → Action
  | done v => done v
  | fail f => fail f
  | eval x next => eval x.bare fun v => (next v).bare
  | evalIn r x next => evalIn r x.bare fun v => (next v).bare
  | invoke x next => invoke x.bare fun v => (next v).bare
  | within bindings body next => within bindings body.bare fun v => (next v).bare
  | bind name v next => bind name v next.bare
  | recover body handler next =>
      recover body.bare (fun f => (handler f).bare) fun v => (next v).bare
  | settle vs next => settle vs fun vs => (next vs).bare
  | view next => view fun flat => (next flat).bare
  | running next => running fun names => (next names).bare
  | effect computation next => effect computation fun v => (next v).bare
  | note v next => note v next.bare
  | trace line next => trace line next.bare

namespace Machine

theorem bare_calling (m : Machine) (frame : Frame) :
    (m.calling frame).bare = m.bare.calling frame.bare := by
  simp only [calling, bare, List.map_append, List.map_take, List.map_singleton]

theorem bare_evaluating (m : Machine) (scope : Option Nat) :
    (m.evaluating scope).bare = m.bare.evaluating scope := by
  unfold evaluating bare
  dsimp only
  split <;> rfl

theorem stackTrace?_bare [HostClasses] (m : Machine) : m.bare.stackTrace? = m.stackTrace? := by
  have htexts : (m.frames.map Frame.bare).mapM (fun f => f.text? m.store) =
      m.frames.mapM fun f => f.text? m.store := by
    rw [List.mapM_map]
    exact congrArg (m.frames.mapM ·) (funext fun f => f.text?_bare m.store)
  rw [stackTrace?, stackTrace?, bare, htexts, List.isEmpty_map]

theorem bare_answered (m : Machine) (active : Nat) :
    { m with frames := m.frames.take active, activeFrames := active }.bare =
      { m.bare with frames := m.bare.frames.take active, activeFrames := active } := by
  simp only [bare, List.map_take]

theorem erasure_bare : Erasure bare where
  scopes_eq {m m'} h := (congrArg scopes h : m.bare.scopes = m'.bare.scopes)
  scope_eq {m m'} h := (congrArg scope h : m.bare.scope = m'.bare.scope)
  store_eq {m m'} h := (congrArg store h : m.bare.store = m'.bare.store)
  withScopes h s := congrArg (fun n : Machine => { n with scopes := s }) h
  withScope h i := congrArg (fun n : Machine => { n with scope := i }) h
  withStore h s := congrArg (fun n : Machine => { n with store := s }) h

section Fields

variable {m m' : Machine} (h : m.bare = m'.bare)
include h

theorem activeFrames_eq : m.activeFrames = m'.activeFrames :=
  (congrArg activeFrames h : m.bare.activeFrames = m'.bare.activeFrames)

theorem frameNames_eq : m.frames.map Frame.name = m'.frames.map Frame.name := by
  have hframes : m.frames.map Frame.bare = m'.frames.map Frame.bare :=
    (congrArg frames h : m.bare.frames = m'.bare.frames)
  have hnames := congrArg (List.map Frame.name) hframes
  rwa [List.map_map, List.map_map] at hnames

end Fields

end Machine

/-- Whether a primitive asks for the same, wherever its invocation was read. -/
def Primitive.Blind (p : Primitive) : Prop := ∀ e, (p e.bare).bare = (p e).bare

/-- Whether two computations have the same result from each two states that are alike but for where
code was read, and leave two such states. -/
def Run.Alike {α : Type} (r r' : Run α) : Prop :=
  ∀ m m' : Machine, m.bare = m'.bare → (r m).1 = (r' m').1 ∧ (r m).2.bare = (r' m').2.bare

namespace Run.Alike

variable {α β : Type} {r r' r'' : Run α}

theorem symm (h : Alike r r') : Alike r' r := AlikeUnder.symm h

theorem trans (h : Alike r r') (h' : Alike r' r'') : Alike r r'' := AlikeUnder.trans h h'

theorem pure (a : α) : Alike (Run.pure a) (Run.pure a) := AlikeUnder.pure a

theorem fail (f : Failure) : Alike (Run.fail f : Run α) (Run.fail f) := AlikeUnder.fail f

theorem unfinished : Alike (Run.unfinished : Run α) Run.unfinished := AlikeUnder.unfinished

theorem ofEffect (e : Effect α) : Alike (Run.ofEffect e) (Run.ofEffect e) :=
  Machine.erasure_bare.ofEffect e

theorem lookup (name : String) : Alike (Run.lookup name) (Run.lookup name) :=
  Machine.erasure_bare.lookup name

theorem visit (v v' : Value) : Alike (Run.visit v) (Run.visit v') := fun _ _ hm => ⟨rfl, hm⟩

theorem traceLine (line : String) : Alike (Run.traceLine line) (Run.traceLine line) := by
  have hbare : ∀ m, (Run.traceLine line m).2.bare = (Run.traceLine line m.bare).2 := by
    intro m
    by_cases ht : m.tracing <;> simp [Run.traceLine, Run.modify, Machine.bare, ht]
  exact fun m m' hm => ⟨rfl, by rw [hbare, hbare, hm]⟩

theorem bindHere (name : String) (v : Value) :
    Alike (Run.bindHere name v) (Run.bindHere name v) := Machine.erasure_bare.bindHere name v

theorem bind {k k' : α → Run β} (h : Alike r r') (hk : ∀ a, Alike (k a) (k' a)) :
    Alike (r >>= k) (r' >>= k') := AlikeUnder.bind h hk

theorem read_bind {k k' : Machine → Run β} (hk : ∀ m m', m.bare = m'.bare → Alike (k m) (k' m')) :
    Alike (Run.read >>= k) (Run.read >>= k') := AlikeUnder.read_bind hk

theorem mapAll_bareAll {f : Node → Run α} (h : ∀ x, Alike (f x) (f x.bare)) (xs : List Node) :
    Alike (Run.mapAll f xs) (Run.mapAll f (Node.bareAll xs)) := by
  rw [Node.bareAll_eq_map]
  exact AlikeUnder.mapAll_map h xs

theorem bindAllHere (bindings : List (String × Value)) :
    Alike (Run.mapAll (fun b : String × Value => Run.bindHere b.1 b.2) bindings)
      (Run.mapAll (fun b : String × Value => Run.bindHere b.1 b.2) bindings) :=
  Machine.erasure_bare.bindAllHere bindings

theorem framed {frame frame' : Frame} (hframe : frame.bare = frame'.bare) (h : Alike r r') :
    Alike (Run.framed frame r) (Run.framed frame' r') := by
  intro m m' hm
  have hcalling : (m.calling frame).bare = (m'.calling frame').bare := by
    rw [m.bare_calling, m'.bare_calling, hm, hframe]
  obtain ⟨hresult, hmachines⟩ := h _ _ hcalling
  rw [Run.framed_eq, Run.framed_eq, Machine.activeFrames_eq hm]
  cases hr : r (m.calling frame) with
  | mk o n =>
      cases hr' : r' (m'.calling frame') with
      | mk o' n' =>
          rw [hr, hr'] at hresult hmachines
          obtain rfl : o = o' := hresult
          dsimp only at hmachines
          cases o with
          | ok a =>
              dsimp only
              rw [n.bare_answered, n'.bare_answered, hmachines]
              exact ⟨rfl, rfl⟩
          | failed f =>
              exact ⟨rfl, congrArg (fun n : Machine => { n with activeFrames := m'.activeFrames })
                hmachines⟩
          | unfinished =>
              exact ⟨rfl, congrArg (fun n : Machine => { n with activeFrames := m'.activeFrames })
                hmachines⟩

theorem evaluation (h : Alike r r') (scope : Option Nat) :
    Alike (Run.evaluation scope r) (Run.evaluation scope r') := by
  intro m m' hm
  have hevaluating : (m.evaluating scope).bare = (m'.evaluating scope).bare := by
    rw [m.bare_evaluating, m'.bare_evaluating, hm]
  obtain ⟨hresult, hmachines⟩ := h _ _ hevaluating
  rw [Run.evaluation_eq, Run.evaluation_eq, Machine.erasure_bare.scope_eq hm]
  exact ⟨hresult, congrArg
    (fun n : Machine => { n with scope := m'.scope, depth := n.depth - 1 }) hmachines⟩

theorem inChild (h : Alike r r') : Alike (Run.inChild r) (Run.inChild r') :=
  Machine.erasure_bare.inChild h

theorem recover {k k' : Failure → Run α} (h : Alike r r') (hk : ∀ f, Alike (k f) (k' f)) :
    Alike (Run.recover r k) (Run.recover r' k') := AlikeUnder.recover h hk

theorem scopeOf (r : ScopeRef) : Alike (Run.scopeOf r) (Run.scopeOf r) :=
  Machine.erasure_bare.scopeOf r

end Run.Alike

namespace Setting

/-- Whether nodes, invocations and actions are run with some fuel as the same ones without the
tokens of nodes. -/
structure Blind (env : Setting) (fuel : Nat) : Prop where
  dispatch : ∀ x, (env.dispatch fuel x).Alike (env.dispatch fuel x.bare)
  invoke : ∀ e, (env.invoke fuel e).Alike (env.invoke fuel e.bare)
  perform : ∀ a, (env.perform fuel a).Alike (env.perform fuel a.bare)
  invokeNode : ∀ x, (env.invokeNode fuel x).Alike (env.invokeNode fuel x.bare)

section Step

open Run Machine

variable {env : Setting} {fuel : Nat}

theorem alike_callMember (line : String) {frame frame' : Frame} (hframe : frame.bare = frame'.bare)
    (member : Member) (arguments : List Value) :
    Alike (Run.traceLine line >>= fun _ => env.callMember frame member arguments)
      (Run.traceLine line >>= fun _ => env.callMember frame' member arguments) :=
  (Alike.traceLine line).bind fun _ => (Alike.ofEffect _).framed hframe

theorem bare_member_frame (e : Invocation) (arguments : List Value) :
    (⟨e.head.headName, arguments, e.node⟩ : Frame).bare =
      (⟨e.bare.head.headName, arguments, e.bare.node⟩ : Frame).bare := by
  simp only [Frame.bare, Invocation.bare, Invocation.node, Node.bare, Node.headName_bare,
    Node.bare_bare, Node.bareAll_bareAll]

theorem alike_invokeStatic {evaluate : Node → Run Value}
    (h : ∀ x, Alike (evaluate x) (evaluate x.bare)) (path : List String) (member : String)
    (e : Invocation) :
    Alike (env.invokeStatic evaluate path member e)
      (env.invokeStatic evaluate path member e.bare) := by
  unfold invokeStatic
  refine (Alike.ofEffect _).bind fun found => ?_
  cases found with
  | none => exact .fail _
  | some target =>
      refine (Alike.mapAll_bareAll h e.parameters).bind fun arguments =>
        (Alike.visit _ _).bind fun _ => (Alike.ofEffect _).bind fun found => ?_
      cases found with
      | none => exact .fail _
      | some m => exact alike_callMember _ (bare_member_frame e arguments) m arguments

theorem alike_invokeInstance {evaluate : Node → Run Value}
    (h : ∀ x, Alike (evaluate x) (evaluate x.bare)) (member : String) (e : Invocation) :
    Alike (env.invokeInstance evaluate member e) (env.invokeInstance evaluate member e.bare) := by
  obtain ⟨head, parameters, span⟩ := e
  unfold invokeInstance
  cases parameters with
  | nil => exact .fail _
  | cons x rest =>
      refine (h x).bind fun receiver => (Alike.visit _ _).bind fun _ => ?_
      dsimp only
      split
      · exact .fail _
      · refine (Alike.mapAll_bareAll h rest).bind fun arguments =>
          (Alike.visit _ _).bind fun _ => (Alike.ofEffect _).bind fun found => ?_
        cases found with
        | none => exact .fail _
        | some m =>
            exact alike_callMember _ (bare_member_frame ⟨head, x :: rest, span⟩ _) m arguments

theorem alike_dispatch_succ (h : env.Blind fuel) (x : Node) :
    Alike (env.dispatch (fuel + 1) x) (env.dispatch (fuel + 1) x.bare) := by
  rw [dispatch.eq_def, dispatch.eq_def]
  refine (Alike.visit _ _).bind fun _ => ?_
  cases x with
  | error message span => exact .fail _
  | literal v span => exact .pure _
  | identifier name span => exact .lookup name
  | list xs span => exact (Alike.mapAll_bareAll h.dispatch xs).bind fun vs => .ofEffect _
  | quote inner span => exact .pure _
  | invocation head parameters span => exact h.invoke ⟨head, parameters, span⟩
  | instanceMember member span => exact .fail _
  | staticMember path member span => exact .fail _

theorem bare_primitive_frame (name : String) (e : Invocation) :
    (⟨name, e.parameters.map Value.code, e.node⟩ : Frame).bare =
      (⟨name, e.bare.parameters.map Value.code, e.bare.node⟩ : Frame).bare := by
  simp [Frame.bare, Invocation.bare, Invocation.node, Node.bare, Node.bareAll_eq_map, Value.bare]

theorem alike_primitive (h : env.Blind fuel) {p : Primitive} (hp : p.Blind) (e : Invocation) :
    Alike (env.perform fuel (p e)) (env.perform fuel (p e.bare)) := by
  have hbare := (h.perform (p e.bare)).symm
  rw [hp e] at hbare
  exact (h.perform (p e)).trans hbare

theorem alike_invoke_succ (hblind : ∀ entry ∈ env.primitives, Primitive.Blind entry.2)
    (h : env.Blind fuel) (e : Invocation) :
    Alike (env.invoke (fuel + 1) e) (env.invoke (fuel + 1) e.bare) := by
  rw [invoke, invoke]
  obtain ⟨head, parameters, span⟩ := e
  cases head with
  | identifier name place =>
      dsimp only [Invocation.bare, Node.bare]
      cases hfind : env.primitives.find? name with
      | none => exact .fail _
      | some p =>
          obtain ⟨entry, hentry, rfl⟩ := Option.map_eq_some_iff.mp hfind
          have hp := hblind entry (List.mem_of_find?_eq_some hentry)
          rw [Node.bareAll_eq_map, List.length_map, ← Node.bareAll_eq_map]
          let e : Invocation := ⟨.identifier name place, parameters, span⟩
          refine (Alike.traceLine _).bind fun _ => ?_
          exact (alike_primitive h hp e).framed (bare_primitive_frame name e)
  | staticMember path member _ => exact alike_invokeStatic h.dispatch path member _
  | instanceMember member _ => exact alike_invokeInstance h.dispatch member _
  | _ => exact .fail _

theorem alike_invokeNode_succ (h : env.Blind fuel) (x : Node) :
    Alike (env.invokeNode (fuel + 1) x) (env.invokeNode (fuel + 1) x.bare) := by
  cases x with
  | invocation head parameters span =>
      rw [Node.bare, invokeNode, invokeNode]
      exact h.invoke ⟨head, parameters, span⟩
  | _ => exact .fail _

theorem alike_perform_succ (h : env.Blind fuel) (a : Action) :
    Alike (env.perform (fuel + 1) a) (env.perform (fuel + 1) a.bare) := by
  rw [perform.eq_def, perform.eq_def]
  cases a with
  | done v => exact .ofEffect _
  | fail f => exact .fail f
  | eval x next =>
      exact erasure_bare.settled ((h.dispatch x).evaluation none) fun v => h.perform (next v)
  | evalIn r x next =>
      refine (Alike.scopeOf r).bind fun scope => ?_
      exact erasure_bare.settled ((h.dispatch x).evaluation scope) fun v => h.perform (next v)
  | invoke x next => exact erasure_bare.settled (h.invokeNode x) fun v => h.perform (next v)
  | within bindings body next =>
      refine Alike.bind (Alike.inChild ?_) fun v => h.perform (next v)
      exact (Alike.bindAllHere bindings).bind fun _ => h.perform body
  | bind name v next => exact (Alike.bindHere name v).bind fun _ => h.perform next
  | recover body handler next =>
      have hrecover := (h.perform body).recover fun f => h.perform (handler f)
      exact hrecover.bind fun v => h.perform (next v)
  | settle vs next => exact (Alike.ofEffect _).bind fun s => h.perform (next _)
  | view next =>
      refine Alike.read_bind fun m m' hm => ?_
      rw [erasure_bare.scopes_eq hm, erasure_bare.scope_eq hm, erasure_bare.store_eq hm]
      exact h.perform (next _)
  | running next =>
      refine Alike.read_bind fun m m' hm => ?_
      rw [Machine.frameNames_eq hm]
      exact h.perform (next _)
  | effect computation next =>
      exact (Alike.ofEffect computation).bind fun v => (Alike.ofEffect _).bind fun v =>
        h.perform (next v)
  | note v next => exact (Alike.ofEffect _).bind fun _ => h.perform next
  | trace line next => exact (Alike.traceLine line).bind fun _ => h.perform next

theorem blind (hblind : ∀ entry ∈ env.primitives, Primitive.Blind entry.2) (fuel : Nat) :
    env.Blind fuel := by
  induction fuel with
  | zero =>
      constructor
      · exact fun _ => .unfinished
      · exact fun _ => .unfinished
      · exact fun _ => .unfinished
      · exact fun _ => .unfinished
  | succ fuel ih =>
      constructor
      · exact alike_dispatch_succ ih
      · exact alike_invoke_succ hblind ih
      · exact alike_perform_succ ih
      · exact alike_invokeNode_succ ih

theorem alike_eval (hblind : ∀ entry ∈ env.primitives, Primitive.Blind entry.2) {x x' : Node}
    (hx : x.bare = x'.bare) (scope : Option Nat) :
    Alike (env.eval x scope) (env.eval x' scope) := by
  have hx' := ((blind hblind ample).dispatch x').symm
  rw [← hx] at hx'
  exact (((blind hblind ample).dispatch x).trans hx').evaluation scope

end Step

end Setting

end HostedLisp
