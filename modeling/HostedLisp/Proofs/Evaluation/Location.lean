import HostedLisp.Proofs.Evaluation.Keeping

namespace HostedLisp

/-- An expression whose evaluation has begun and not ended, and whether a primitive requested that
it be run as an invocation. -/
structure Task where
  node : Node
  requested : Bool

/-- Whether something else may be at hand when the task fails: only what primitives do can fail
after an evaluation that the evaluator does not come back from by itself. -/
def Task.Strays (t : Task) : Prop :=
  t.requested = true ∨
    ∃ name span parameters whole, t.node = .invocation (.identifier name span) parameters whole

/-- A point of an evaluation: the expressions whose evaluation has begun and not ended, innermost
first, and what is at hand instead of the innermost one, if an evaluation in it has ended since. -/
structure Site where
  pending : List Task
  strayed : Option Node

namespace Site

/-- The point where nothing has been evaluated yet. -/
def outermost : Site := ⟨[], none⟩

def innermost? (s : Site) : Option Node := s.pending.head?.map Task.node

def atHand? (s : Site) : Option Node := s.strayed.or s.innermost?

/-- The point where the evaluation of an expression begins. -/
def begin (s : Site) (x : Node) : Site := ⟨⟨x, false⟩ :: s.pending, none⟩

/-- The point where an invocation begins that a primitive requests, which leaves alone what is at
hand. -/
def request (s : Site) (x : Node) : Site := ⟨⟨x, true⟩ :: s.pending, s.atHand?⟩

/-- The point after an evaluation that began at `s` and has ended at `inner`. -/
def resume (s inner : Site) : Site := ⟨s.pending, inner.atHand?⟩

/-- Whether the innermost expression is at hand, unless it is one that may be left. -/
def Faithful (s : Site) : Prop :=
  ∃ t rest, s.pending = t :: rest ∧ (s.strayed = none ∨ t.Strays)

end Site

/-- How the point changes in a computation that starts in a machine. It is the one at its end, which
is where its failure arises if it fails. -/
abbrev Trail := Site → Machine → Site

namespace Trail

variable {α β : Type}

/-- A computation that evaluates nothing. -/
def still : Trail := fun s _ => s

/-- The innermost expression is at hand again. -/
def regain : Trail := fun s _ => { s with strayed := none }

def andThen (r : Run α) (first : Trail) (second : α → Trail) : Trail := fun s m =>
  match r m with
  | (.ok a, m') => second a (first s m) m'
  | _ => first s m

/-- A computation that evaluates nothing, and another one after it. -/
def after (r : Run α) (second : α → Trail) : Trail := andThen r still second

def mapAll (f : α → Run β) (trail : α → Trail) : List α → Trail
  | [] => still
  | x :: xs => andThen (f x) (trail x) fun _ => mapAll f trail xs

/-- A computation in a machine that is entered for it. -/
def entering (enter : Machine → Machine) (body : Trail) : Trail := fun s m => body s (enter m)

/-- The evaluation of an expression, which is pending until it answers. -/
def task (start : Site → Site) (r : Run α) (body : Trail) : Trail := fun s m =>
  match r m with
  | (.ok _, _) => s.resume (body (start s) m)
  | _ => body (start s) m

def recover (r : Run α) (body : Trail) (handler : Failure → Trail) : Trail := fun s m =>
  match r m with
  | (.failed f, m') => if f.isEvaluation then handler f (s.resume (body s m)) m' else body s m
  | _ => body s m

end Trail

namespace Setting

open Trail

def trailOfStatic (env : Setting) (evaluate : Node → Run Value) (trail : Node → Trail)
    (path : List String) (e : Invocation) : Trail :=
  after (Run.ofEffect (env.host.resolveType path)) fun
    | none => still
    | some _ =>
        andThen (Run.mapAll evaluate e.parameters) (mapAll evaluate trail e.parameters) fun _ =>
        regain

def trailOfInstance (evaluate : Node → Run Value) (trail : Node → Trail) (e : Invocation) : Trail :=
  match e.parameters with
  | [] => still
  | x :: rest =>
      andThen (evaluate x) (trail x) fun receiver =>
      andThen (Run.visit (.code e.node)) regain fun _ =>
      if receiver.isNull then still
      else andThen (Run.mapAll evaluate rest) (mapAll evaluate trail rest) fun _ => regain

mutual

/-- The point at the end of the evaluation of a node. -/
def trail (env : Setting) : Nat → Node → Trail
  | 0, _ => still
  | fuel + 1, x =>
      task (·.begin x) (env.dispatch (fuel + 1) x) <|
      after (Run.visit (.code x)) fun _ =>
      match x with
      | .list xs _ => mapAll (env.dispatch fuel) (trail env fuel) xs
      | .invocation head parameters span => trailOfInvocation env fuel ⟨head, parameters, span⟩
      | _ => still

def trailOfInvocation (env : Setting) : Nat → Invocation → Trail
  | 0, _ => still
  | fuel + 1, e =>
      match e.head with
      | .identifier name _ =>
          match env.primitives.find? name with
          | none => still
          | some p =>
              after (Run.traceLine ("extern " ++ name ++ " argc " ++
                toString e.parameters.length)) fun _ =>
              entering (Machine.calling · ⟨name, e.parameters.map Value.code, e.node⟩)
                (trailOfAction env fuel (p e))
      | .staticMember path _ _ => env.trailOfStatic (env.dispatch fuel) (trail env fuel) path e
      | .instanceMember .. => trailOfInstance (env.dispatch fuel) (trail env fuel) e
      | _ => still

def trailOfAction (env : Setting) : Nat → Action → Trail
  | 0, _ => still
  | fuel + 1, a =>
      match a with
      | .done _ => still
      | .fail _ => still
      | .eval x next =>
          andThen (Run.evaluation none (env.dispatch fuel x))
            (entering (Machine.evaluating · none) (trail env fuel x)) fun v =>
          after (Run.ofEffect (Effect.settle v)) fun v => trailOfAction env fuel (next v)
      | .evalIn r x next =>
          after (Run.scopeOf r) fun scope =>
          andThen (Run.evaluation scope (env.dispatch fuel x))
            (entering (Machine.evaluating · scope) (trail env fuel x)) fun v =>
          after (Run.ofEffect (Effect.settle v)) fun v => trailOfAction env fuel (next v)
      | .invoke x next =>
          andThen (env.invokeNode fuel x) (trailOfInvokedNode env fuel x) fun v =>
          after (Run.ofEffect (Effect.settle v)) fun v => trailOfAction env fuel (next v)
      | .within bindings body next =>
          andThen
            (Run.inChild do
              let _ ← Run.mapAll (fun (b : String × Value) => Run.bindHere b.1 b.2) bindings
              env.perform fuel body)
            (entering Machine.opening <|
              after (Run.mapAll (fun b : String × Value => Run.bindHere b.1 b.2) bindings) fun _ =>
              trailOfAction env fuel body)
            fun v => trailOfAction env fuel (next v)
      | .bind name v next =>
          after (Run.bindHere name v) fun _ => trailOfAction env fuel next
      | .recover body handler next =>
          andThen (Run.recover (env.perform fuel body) fun f => env.perform fuel (handler f))
            (recover (env.perform fuel body) (trailOfAction env fuel body) fun f =>
              trailOfAction env fuel (handler f))
            fun v => trailOfAction env fuel (next v)
      | .settle vs next =>
          after (Run.ofEffect Effect.read) fun s => trailOfAction env fuel (next (s.settleAll vs))
      | .view next =>
          after Run.read fun m =>
          trailOfAction env fuel (next ((m.scopes.chain m.scope).flatten.map fun e =>
            (e.1, m.store.settle e.2)))
      | .running next =>
          after Run.read fun m => trailOfAction env fuel (next (m.frames.map Frame.name))
      | .effect computation next =>
          after (Run.ofEffect computation) fun v =>
          after (Run.ofEffect (Effect.adopt v)) fun v => trailOfAction env fuel (next v)
      | .note v next =>
          after (Run.ofEffect (Effect.modify fun s => s.record (.noted v))) fun _ =>
          trailOfAction env fuel next
      | .trace line next =>
          after (Run.traceLine line) fun _ => trailOfAction env fuel next

def trailOfInvokedNode (env : Setting) : Nat → Node → Trail
  | 0, _ => still
  | fuel + 1, x =>
      match x with
      | .invocation head parameters span =>
          task (·.request x) (env.invokeNode (fuel + 1) x)
            (trailOfInvocation env fuel ⟨head, parameters, span⟩)
      | _ => still

end

end Setting

/-- Whether a computation leaves alone what is at hand. -/
def Run.Quiet {α : Type} (r : Run α) : Prop := r.Keeps fun m m' => m'.current = m.current

namespace Run.Quiet

variable {α : Type}

theorem preordered : Preordered fun m m' : Machine => m'.current = m.current where
  refl _ := rfl
  trans h h' := h'.trans h

theorem pure (a : α) : Quiet (Run.pure a) := Keeps.pure preordered a

theorem fail (f : Failure) : Quiet (Run.fail f : Run α) := Keeps.fail preordered f

theorem read : Quiet Run.read := Keeps.read preordered

theorem bind {β : Type} {r : Run α} {k : α → Run β} (h : Quiet r) (hk : ∀ a, Quiet (k a)) :
    Quiet (r >>= k) :=
  Keeps.bind preordered h hk

theorem traceLine (line : String) : Quiet (Run.traceLine line) := by
  intro m
  by_cases h : m.tracing <;> simp [Run.traceLine, Run.modify, h]

theorem ofEffect (e : Effect α) : Quiet (Run.ofEffect e) := fun _ => rfl

theorem lookup (name : String) : Quiet (Run.lookup name) := fun _ => rfl

theorem bindAt (i : Nat) (name : String) (v : Value) : Quiet (Run.bindAt i name v) := by
  intro m
  unfold Run.bindAt
  split <;> rfl

theorem bindHere (name : String) (v : Value) : Quiet (Run.bindHere name v) :=
  fun m => bindAt m.scope name v m

theorem bindAll (bindings : List (String × Value)) :
    Quiet (Run.mapAll (fun (b : String × Value) => Run.bindHere b.1 b.2) bindings) :=
  Keeps.mapAll preordered (fun b : String × Value => bindHere b.1 b.2) bindings

theorem scopeOf (ref : ScopeRef) : Quiet (Run.scopeOf ref) := by
  refine Keeps.scopeOf preordered (fun parent bindings m => ?_) ref
  have hone := fun b : String × Value => bindAt (m.scopes.add parent).1 b.1 b.2
  exact bind (Keeps.mapAll preordered hone bindings) (fun _ => pure (m.scopes.add parent).1)
    { m with scopes := (m.scopes.add parent).2 }

theorem framed {r : Run α} (h : Quiet r) (frame : Frame) : Quiet (Run.framed frame r) := by
  intro m
  have hbody := h (m.calling frame)
  rw [Run.framed_eq]
  cases hr : r (m.calling frame) with
  | mk o m' =>
      rw [hr] at hbody
      cases o <;> exact hbody

end Run.Quiet

/-- Whether the machine holds what is at hand at a point, if this is known. -/
def Machine.IsAt (m : Machine) (s : Site) : Prop :=
  ∀ x, s.atHand? = some x → m.current = some (.code x)

/-- Whether a computation that was started at the point `s` ends at the point `s'`. -/
structure Site.Reaches {α : Type} (s : Site) (result : Outcome α × Machine) (s' : Site) : Prop where
  isAt : result.2.IsAt s'
  pending_eq : ∀ a, result.1 = .ok a → s'.pending = s.pending
  pending_suffix : ∀ f, result.1 = .failed f → s.pending <:+ s'.pending
  faithful : ∀ f, result.1 = .failed f → s'.Faithful

/-- Whether a computation ends at the point that its trail leads to, from all points of a kind. -/
def Locates {α : Type} (P : Site → Prop) (r : Run α) (trail : Trail) : Prop :=
  ∀ m s, P s → m.IsAt s → s.Reaches (r m) (trail s m)

namespace Site

def Innermost (x : Node) (s : Site) : Prop := s.innermost? = some x

/-- The innermost expression is this one, and it is at hand. -/
def Holds (x : Node) (s : Site) : Prop := s.Innermost x ∧ s.strayed = none

/-- The innermost expression is an invocation whose primitive is at work, or had it run. -/
def Performs (s : Site) : Prop := ∃ t rest, s.pending = t :: rest ∧ t.Strays

/-- Whether nothing counts but the expressions that are pending. -/
def OfPending (P : Site → Prop) : Prop := ∀ s s' : Site, s'.pending = s.pending → P s → P s'

theorem ofPending_innermost (x : Node) : OfPending (Innermost x) := by
  intro s s' h hs
  rw [Innermost, innermost?, h]
  exact hs

theorem ofPending_performs : OfPending Performs := by
  intro s s' h hs
  rw [Performs, h]
  exact hs

theorem Innermost.exists_eq_cons {s : Site} {x : Node} (h : s.Innermost x) :
    ∃ t rest, s.pending = t :: rest ∧ t.node = x := by
  obtain ⟨t, ht, hnode⟩ := Option.map_eq_some_iff.mp h
  obtain ⟨rest, hpending⟩ := List.head?_eq_some_iff.mp ht
  exact ⟨t, rest, hpending, hnode⟩

theorem Holds.faithful {s : Site} {x : Node} (h : s.Holds x) : s.Faithful := by
  obtain ⟨t, rest, hpending, -⟩ := h.1.exists_eq_cons
  exact ⟨t, rest, hpending, .inl h.2⟩

theorem Performs.faithful {s : Site} (h : s.Performs) : s.Faithful := by
  obtain ⟨t, rest, hpending, ht⟩ := h
  exact ⟨t, rest, hpending, .inr ht⟩

theorem atHand?_of_pending {s : Site} {t : Task} {rest : List Task} (h : s.pending = t :: rest) :
    s.atHand? = some (s.strayed.getD t.node) := by
  rw [atHand?, innermost?, h]
  cases s.strayed <;> rfl

theorem atHand?_resume {inner : Site} (s : Site) (h : inner.pending ≠ []) :
    (s.resume inner).atHand? = inner.atHand? := by
  obtain ⟨t, rest, hpending⟩ := List.exists_cons_of_ne_nil h
  rw [resume, atHand?_of_pending hpending]
  rfl

theorem atHand?_request {s : Site} (h : s.Performs) (x : Node) :
    (s.request x).atHand? = s.atHand? := by
  obtain ⟨t, rest, hpending, -⟩ := h
  rw [request, atHand?_of_pending hpending]
  rfl

namespace Reaches

variable {α β : Type} {m' : Machine} {s s' inner : Site} {o : Outcome α}

theorem ok {a : α} (hat : m'.IsAt s') (hpending : s'.pending = s.pending) :
    s.Reaches (.ok a, m') s' where
  isAt := hat
  pending_eq _ _ := hpending
  pending_suffix _ hf := by cases hf
  faithful _ hf := by cases hf

theorem unfinished (hat : m'.IsAt s') : s.Reaches ((.unfinished : Outcome α), m') s' where
  isAt := hat
  pending_eq _ ha := by cases ha
  pending_suffix _ hf := by cases hf
  faithful _ hf := by cases hf

theorem of_not_answer {o' : Outcome β} (h : s.Reaches (o, m') s') (hok : ∀ b, o' ≠ .ok b)
    (hfailed : ∀ f, o' = .failed f → o = .failed f) : s.Reaches (o', m') s' where
  isAt := h.isAt
  pending_eq b hb := absurd hb (hok b)
  pending_suffix f hf := h.pending_suffix f (hfailed f hf)
  faithful f hf := h.faithful f (hfailed f hf)

theorem trans {result : Outcome β × Machine} {s'' : Site} (h : s'.Reaches result s'')
    (hpending : s'.pending = s.pending) : s.Reaches result s'' where
  isAt := h.isAt
  pending_eq b hb := (h.pending_eq b hb).trans hpending
  pending_suffix f hf := hpending ▸ h.pending_suffix f hf
  faithful := h.faithful

theorem of_task {start : Site} {t : Task} (h : start.Reaches (o, m') inner)
    (hstart : start.pending = t :: s.pending) :
    s.Reaches (o, m') (match (o, m') with
      | (.ok _, _) => s.resume inner
      | _ => inner) := by
  -- An answer takes the expression off again; a failure leaves it pending, with more in front.
  have hsuffix : s.pending <:+ start.pending := hstart ▸ List.suffix_cons t s.pending
  cases o with
  | ok a =>
      have hinner : inner.pending ≠ [] := by
        rw [h.pending_eq a rfl, hstart]
        exact List.cons_ne_nil t s.pending
      exact .ok (fun x hx => h.isAt x (atHand?_resume s hinner ▸ hx)) rfl
  | failed f =>
      exact ⟨h.isAt, nofun, fun f hf => hsuffix.trans (h.pending_suffix f hf), h.faithful⟩
  | unfinished => exact .unfinished h.isAt

end Reaches

end Site

namespace Locates

open Site

variable {α β : Type} {P Q : Site → Prop} {r : Run α} {trail : Trail}

theorem weaken (h : Locates Q r trail) (hPQ : ∀ s, P s → Q s) : Locates P r trail :=
  fun m s hs hm => h m s (hPQ s hs) hm

theorem quiet (hr : r.Quiet) (hP : ∀ s, P s → s.Faithful) : Locates P r Trail.still := by
  intro m s hs hm
  exact ⟨fun x hx => (hr m).trans (hm x hx), fun _ _ => rfl, fun _ _ => List.suffix_refl _,
    fun _ _ => hP s hs⟩

theorem sure (hr : r.Quiet) (hsure : ∀ m, ∃ a, (r m).1 = .ok a) : Locates P r Trail.still := by
  intro m s _ hm
  obtain ⟨a, ha⟩ := hsure m
  refine ⟨fun x hx => (hr m).trans (hm x hx), fun _ _ => rfl, fun _ _ => List.suffix_refl _,
    fun f hf => ?_⟩
  rw [ha] at hf
  cases hf

theorem unfinished : Locates P (Run.unfinished : Run α) Trail.still :=
  fun _ _ _ hm => .unfinished hm

theorem bind_of_reached {k : α → Run β} {next : α → Trail} (h : Locates P r trail)
    (hk : ∀ a, Locates Q (k a) (next a))
    (hPQ : ∀ s m, P s → (trail s m).pending = s.pending → Q (trail s m)) :
    Locates P (r >>= k) (Trail.andThen r trail next) := by
  intro m s hs hm
  have hfirst := h m s hs hm
  change s.Reaches (Run.bind r k m) _
  unfold Run.bind Trail.andThen
  cases hr : r m with
  | mk o m' =>
      rw [hr] at hfirst
      cases o with
      | ok a =>
          have hpending := hfirst.pending_eq a rfl
          exact (hk a m' _ (hPQ s m hs hpending) hfirst.isAt).trans hpending
      | failed f => exact hfirst.of_not_answer nofun fun _ hf => by cases hf; rfl
      | unfinished => exact .unfinished hfirst.isAt

theorem bind {k : α → Run β} {next : α → Trail} (h : Locates P r trail) (hP : OfPending P)
    (hk : ∀ a, Locates P (k a) (next a)) : Locates P (r >>= k) (Trail.andThen r trail next) :=
  h.bind_of_reached hk fun _ _ hs hpending => hP _ _ hpending hs

theorem after {k : α → Run β} {next : α → Trail} (h : Locates P r Trail.still)
    (hk : ∀ a, Locates P (k a) (next a)) : Locates P (r >>= k) (Trail.after r next) :=
  h.bind_of_reached hk fun _ _ hs _ => hs

theorem bind_still {k : α → Run β} (h : Locates P r trail) (hP : OfPending P)
    (hk : ∀ a, Locates P (k a) Trail.still) : Locates P (r >>= k) trail := by
  have htrail : Trail.andThen r trail (fun _ => Trail.still) = trail := by
    funext s m
    unfold Trail.andThen
    split <;> rfl
  have hbind := h.bind hP hk
  rwa [htrail] at hbind

theorem mapAll {γ : Type} {f : γ → Run α} {o : γ → Trail}
    (h : ∀ x, Locates (fun _ => True) (f x) (o x)) (xs : List γ) :
    Locates P (Run.mapAll f xs) (Trail.mapAll f o xs) := by
  have hpure : ∀ ys : List α, Locates (fun _ => True) (Run.pure ys) Trail.still := fun ys =>
    sure (.pure ys) fun _ => ⟨ys, rfl⟩
  refine weaken (Q := fun _ => True) ?_ fun _ _ => trivial
  induction xs with
  | nil => exact hpure []
  | cons x xs ih =>
      exact (h x).bind (fun _ _ _ _ => trivial) fun y =>
        ih.bind_still (fun _ _ _ _ => trivial) fun ys => hpure (y :: ys)

theorem regain {x : Node} {k : Unit → Run α} {next : Trail} (hk : Locates (Holds x) (k ()) next) :
    Locates (Innermost x) (Run.visit (.code x) >>= k)
      (Trail.andThen (Run.visit (.code x)) Trail.regain fun _ => next) := by
  refine bind_of_reached (Q := Holds x) (fun m s hs _ => ?_) (fun _ => hk) fun s _ hs _ => ⟨hs, rfl⟩
  refine Reaches.ok (fun y hy => ?_) rfl
  have hxy : x = y := Option.some.inj (hs.symm.trans hy)
  exact congrArg (some ∘ Value.code) hxy

theorem regain_quiet {x : Node} {k : Unit → Run α} (hk : (k ()).Quiet) :
    Locates (Innermost x) (Run.visit (.code x) >>= k) Trail.regain :=
  (quiet hk fun _ => Holds.faithful).regain

theorem begin {x : Node} {k : Unit → Run α} {next : Trail} (hk : Locates (Holds x) (k ()) next) :
    Locates P (Run.visit (.code x) >>= k)
      (Trail.task (·.begin x) (Run.visit (.code x) >>= k)
        (Trail.after (Run.visit (.code x)) fun _ => next)) := by
  intro m s _ _
  have hin := hk { m with current := some (.code x) } (s.begin x) ⟨rfl, rfl⟩ fun y hy => by
    cases hy
    rfl
  exact hin.of_task rfl

theorem request {x : Node} (h : Locates (fun s => s.Innermost x ∧ s.Faithful) r trail) :
    Locates Performs r (Trail.task (·.request x) r trail) := by
  intro m s hs hm
  have hat : m.IsAt (s.request x) := fun y hy => hm y (atHand?_request hs x ▸ hy)
  have hfaithful : (s.request x).Faithful := ⟨_, _, rfl, .inr (.inl rfl)⟩
  exact (h m (s.request x) ⟨rfl, hfaithful⟩ hat).of_task rfl

theorem entering {r' : Run α} {enter : Machine → Machine} (h : Locates P r trail)
    (henter : ∀ m, (enter m).current = m.current)
    (hr' : ∀ m, (r' m).1 = (r (enter m)).1 ∧ (r' m).2.current = (r (enter m)).2.current) :
    Locates P r' (Trail.entering enter trail) := by
  intro m s hs hm
  have hin := h (enter m) s hs fun x hx => (henter m).trans (hm x hx)
  obtain ⟨hresult, hcurrent⟩ := hr' m
  exact ⟨fun x hx => hcurrent.trans (hin.isAt x hx), fun a ha => hin.pending_eq a (hresult ▸ ha),
    fun f hf => hin.pending_suffix f (hresult ▸ hf), fun f hf => hin.faithful f (hresult ▸ hf)⟩

theorem evaluation (h : Locates P r trail) (scope : Option Nat) :
    Locates P (Run.evaluation scope r) (Trail.entering (Machine.evaluating · scope) trail) :=
  h.entering (fun _ => rfl) fun _ => ⟨rfl, rfl⟩

theorem inChild (h : Locates P r trail) :
    Locates P (Run.inChild r) (Trail.entering Machine.opening trail) :=
  h.entering (fun _ => rfl) fun _ => ⟨rfl, rfl⟩

theorem framed (h : Locates P r trail) (frame : Frame) :
    Locates P (Run.framed frame r) (Trail.entering (Machine.calling · frame) trail) := by
  refine h.entering (fun _ => rfl) fun m => ?_
  rw [Run.framed_eq]
  cases r (m.calling frame) with
  | mk o m' => cases o <;> exact ⟨rfl, rfl⟩

theorem recover {handler : Failure → Run α} {next : Failure → Trail} (h : Locates Performs r trail)
    (hh : ∀ f, Locates Performs (handler f) (next f)) :
    Locates Performs (Run.recover r handler) (Trail.recover r trail next) := by
  intro m s hs hm
  have hbody := h m s hs hm
  unfold Run.recover Trail.recover
  cases hr : r m with
  | mk o m' =>
      rw [hr] at hbody
      cases o with
      | ok a => exact hbody
      | unfinished => exact hbody
      | failed f =>
          dsimp only
          split
          -- The body failed inside of the primitive, so that something is at hand to go on with.
          · have hinner : (trail s m).pending ≠ [] := by
              obtain ⟨t, rest, hpending, -⟩ := hs
              have hsuffix := hbody.pending_suffix f rfl
              rw [hpending] at hsuffix
              exact List.ne_nil_of_mem (hsuffix.subset List.mem_cons_self)
            have hat : m'.IsAt (s.resume (trail s m)) :=
              fun x hx => hbody.isAt x (atHand?_resume s hinner ▸ hx)
            exact (hh f m' (s.resume _) (ofPending_performs s _ rfl hs) hat).trans rfl
          · exact hbody

end Locates

namespace Setting

open Site

/-- Whether evaluation with some fuel ends at the points that the trails lead to. -/
structure FindsItsPlace (env : Setting) (fuel : Nat) : Prop where
  dispatch : ∀ x, Locates (fun _ => True) (env.dispatch fuel x) (env.trail fuel x)
  invoke : ∀ e, Locates (fun s => s.Innermost e.node ∧ s.Faithful) (env.invoke fuel e)
    (env.trailOfInvocation fuel e)
  perform : ∀ a, Locates Performs (env.perform fuel a) (env.trailOfAction fuel a)
  invokeNode : ∀ x, Locates Performs (env.invokeNode fuel x) (env.trailOfInvokedNode fuel x)

section Step

variable {env : Setting} {fuel : Nat}

theorem quiet_callMember (line : String) (frame : Frame) (member : Member)
    (arguments : List Value) :
    (Run.traceLine line >>= fun _ => env.callMember frame member arguments).Quiet :=
  (Run.Quiet.traceLine line).bind fun _ => (Run.Quiet.ofEffect _).framed frame

/-- What follows the arguments of a member's invocation belongs to the invocation. -/
theorem locates_arguments {evaluate : Node → Run Value} {trail : Node → Trail}
    (h : ∀ x, Locates (fun _ => True) (evaluate x) (trail x)) {P : Site → Prop} {x : Node}
    (hP : ∀ s, P s → s.Innermost x) (ys : List Node) {k : List Value → Unit → Run Value}
    (hk : ∀ vs, (k vs ()).Quiet) :
    Locates P (Run.mapAll evaluate ys >>= fun vs => Run.visit (.code x) >>= k vs)
      (Trail.andThen (Run.mapAll evaluate ys) (Trail.mapAll evaluate trail ys) fun _ =>
        Trail.regain) :=
  (Locates.mapAll h ys).bind_of_reached (fun vs => Locates.regain_quiet (hk vs))
    fun s _ hs hpending => ofPending_innermost x s _ hpending (hP s hs)

theorem locates_invokeStatic {evaluate : Node → Run Value} {trail : Node → Trail}
    (h : ∀ x, Locates (fun _ => True) (evaluate x) (trail x)) (path : List String)
    (member : String) (e : Invocation) :
    Locates (fun s => s.Innermost e.node ∧ s.Faithful) (env.invokeStatic evaluate path member e)
      (env.trailOfStatic evaluate trail path e) := by
  unfold invokeStatic trailOfStatic
  refine (Locates.quiet (.ofEffect _) fun _ hs => hs.2).after fun found => ?_
  cases found with
  | none => exact .quiet (.fail _) fun _ hs => hs.2
  | some target =>
      refine locates_arguments h (fun _ hs => hs.1) e.parameters fun vs => ?_
      refine Run.Quiet.bind (.ofEffect _) fun found => ?_
      cases found with
      | none => exact .fail _
      | some m => exact quiet_callMember _ _ m vs

theorem locates_invokeInstance {evaluate : Node → Run Value} {trail : Node → Trail}
    (h : ∀ x, Locates (fun _ => True) (evaluate x) (trail x)) (member : String) (e : Invocation) :
    Locates (fun s => s.Innermost e.node ∧ s.Faithful) (env.invokeInstance evaluate member e)
      (trailOfInstance evaluate trail e) := by
  unfold invokeInstance trailOfInstance
  cases e.parameters with
  | nil => exact .quiet (.fail _) fun _ hs => hs.2
  | cons x rest =>
      -- The invocation is at hand again once before the receiver is looked at, and once after the
      -- arguments.
      refine ((h x).weaken fun _ _ => trivial).bind_of_reached (Q := Innermost e.node)
        (fun receiver => Locates.regain ?_)
        fun s _ hs hpending => ofPending_innermost e.node s _ hpending hs.1
      split
      · exact .quiet (.fail _) fun _ => Holds.faithful
      · refine locates_arguments h (fun _ hs => hs.1) rest fun vs => ?_
        refine Run.Quiet.bind (.ofEffect _) fun found => ?_
        cases found with
        | none => exact .fail _
        | some m => exact quiet_callMember _ _ m _

theorem locates_dispatch_succ (h : env.FindsItsPlace fuel) (x : Node) :
    Locates (fun _ => True) (env.dispatch (fuel + 1) x) (env.trail (fuel + 1) x) := by
  rw [trail.eq_def]
  dsimp only
  rw [dispatch.eq_def]
  refine Locates.begin ?_
  cases x with
  | error message span => exact .quiet (.fail _) fun _ => Holds.faithful
  | literal value span => exact .quiet (.pure _) fun _ => Holds.faithful
  | identifier name span => exact .quiet (.lookup name) fun _ => Holds.faithful
  | list xs span =>
      -- An item that failed last has nothing to do with the list, whose own part cannot fail.
      have hitems := (Locates.mapAll h.dispatch xs).bind_still (P := fun _ => True)
        (fun _ _ _ _ => trivial) fun vs => .sure (.ofEffect (Effect.adopt (.listOf vs))) fun _ =>
          ⟨_, rfl⟩
      exact hitems.weaken fun _ _ => trivial
  | quote inner span => exact .quiet (.pure _) fun _ => Holds.faithful
  | invocation head parameters span =>
      exact (h.invoke _).weaken fun _ hs => ⟨hs.1, hs.faithful⟩
  | instanceMember member span =>
      exact .quiet (.fail _) fun _ => Holds.faithful
  | staticMember path member span =>
      exact .quiet (.fail _) fun _ => Holds.faithful

theorem locates_invoke_succ (h : env.FindsItsPlace fuel) (e : Invocation) :
    Locates (fun s => s.Innermost e.node ∧ s.Faithful) (env.invoke (fuel + 1) e)
      (env.trailOfInvocation (fuel + 1) e) := by
  rw [invoke, trailOfInvocation]
  cases hhead : e.head with
  | identifier name span =>
      dsimp only
      cases env.primitives.find? name with
      | none => exact .quiet (.fail _) fun _ hs => hs.2
      | some p =>
          refine (Locates.quiet (.traceLine _) fun _ hs => hs.2).after fun _ => ?_
          refine ((h.perform (p e)).framed _).weaken fun s hs => ?_
          obtain ⟨t, rest, hpending, hnode⟩ := hs.1.exists_eq_cons
          rw [Invocation.node, hhead] at hnode
          exact ⟨t, rest, hpending, .inr ⟨name, span, e.parameters, e.span, hnode⟩⟩
  | staticMember path member span => exact locates_invokeStatic h.dispatch path member e
  | instanceMember member span => exact locates_invokeInstance h.dispatch member e
  | _ => exact .quiet (.fail _) fun _ hs => hs.2

theorem locates_invokeNode_succ (h : env.FindsItsPlace fuel) (x : Node) :
    Locates Performs (env.invokeNode (fuel + 1) x) (env.trailOfInvokedNode (fuel + 1) x) := by
  cases x with
  | invocation head parameters span =>
      rw [trailOfInvokedNode, invokeNode]
      exact (h.invoke ⟨head, parameters, span⟩).request
  | _ => exact .quiet (.fail _) fun _ => Performs.faithful

theorem locates_settled {r : Run Value} {o : Trail} {k : Value → Run Value} {next : Value → Trail}
    (h : Locates Performs r o) (hk : ∀ v, Locates Performs (k v) (next v)) :
    Locates Performs (do k (← Run.ofEffect (Effect.settle (← r))))
      (o.andThen r fun v => .after (Run.ofEffect (Effect.settle v)) next) :=
  h.bind ofPending_performs fun _ =>
    (Locates.quiet (.ofEffect _) fun _ => Performs.faithful).after hk

theorem locates_perform_succ (h : env.FindsItsPlace fuel) (a : Action) :
    Locates Performs (env.perform (fuel + 1) a) (env.trailOfAction (fuel + 1) a) := by
  have hquiet : ∀ {α : Type} {r : Run α}, r.Quiet → Locates Performs r Trail.still :=
    fun hr => .quiet hr fun _ => Performs.faithful
  have hvisited : ∀ x, Locates Performs (env.dispatch fuel x) (env.trail fuel x) :=
    fun x => (h.dispatch x).weaken fun _ _ => trivial
  rw [perform.eq_def, trailOfAction.eq_def]
  cases a with
  | done v => exact hquiet (.ofEffect _)
  | fail f => exact hquiet (.fail f)
  | eval x next => exact locates_settled ((hvisited x).evaluation none) fun v => h.perform (next v)
  | evalIn r x next =>
      refine (hquiet (.scopeOf r)).after fun scope => ?_
      exact locates_settled ((hvisited x).evaluation scope) fun v => h.perform (next v)
  | invoke x next => exact locates_settled (h.invokeNode x) fun v => h.perform (next v)
  | within bindings body next =>
      have hbody := (hquiet (.bindAll bindings)).after fun _ => h.perform body
      exact hbody.inChild.bind ofPending_performs fun v => h.perform (next v)
  | bind name v next => exact (hquiet (.bindHere name v)).after fun _ => h.perform next
  | recover body handler next =>
      have hrecover := (h.perform body).recover fun f => h.perform (handler f)
      exact hrecover.bind ofPending_performs fun v => h.perform (next v)
  | settle vs next => exact (hquiet (.ofEffect _)).after fun s => h.perform _
  | view next => exact (hquiet .read).after fun m => h.perform _
  | running next => exact (hquiet .read).after fun m => h.perform _
  | effect computation next =>
      refine (hquiet (.ofEffect computation)).after fun v => ?_
      exact (hquiet (.ofEffect _)).after fun v => h.perform (next v)
  | note v next => exact (hquiet (.ofEffect _)).after fun _ => h.perform next
  | trace line next => exact (hquiet (.traceLine line)).after fun _ => h.perform next

theorem findsItsPlace (env : Setting) (fuel : Nat) : env.FindsItsPlace fuel := by
  -- All four at once, as the trails call each other just as the functions do.
  induction fuel with
  | zero =>
      constructor
      · exact fun _ => .unfinished
      · exact fun _ => .unfinished
      · exact fun _ => .unfinished
      · exact fun _ => .unfinished
  | succ fuel ih =>
      constructor
      · exact locates_dispatch_succ ih
      · exact locates_invoke_succ ih
      · exact locates_perform_succ ih
      · exact locates_invokeNode_succ ih

end Step

end Setting

end HostedLisp
