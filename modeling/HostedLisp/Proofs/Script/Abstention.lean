import HostedLisp.Proofs.Host.Privacy
import HostedLisp.Proofs.Script.Taxonomy

/-!
Evaluations that use neither the host nor templates. A host that offers nothing and takes note of
what it is asked for tells whether one does: if it has taken no note at the end, the evaluation is
the same with every other host, and without templates.
-/

namespace HostedLisp

open Memory

/-- The host that offers nothing and records what it is asked for. -/
def Host.listening : Host where
  resolveType path := do
    Effect.modify fun s => s.record (.typeRequested path)
    return none
  resolveMember _ name types := do
    Effect.modify fun s => s.record (.memberRequested "" name types)
    return none
  call _ _ := Effect.pure .null

/-- Stands for a primitive and only records that it was called. -/
def Primitive.listening : Primitive := fun _ => .note .null (.done .null)

/-- An evaluator that records each use of the host and of templates instead. -/
def Setting.listening (env : Setting) : Setting :=
  ⟨Host.listening, ("render", Primitive.listening) :: env.primitives⟩

/-- Something was recorded or nothing, but no record was lost. -/
abbrev Memory.Grows : Memory → Memory → Prop := Adds fun _ => True

theorem Memory.conserved_grows : Conserved Grows := conserved_adds fun _ => trivial

namespace Run

variable {α β : Type}

/-- Whether nothing is recorded in a run from some state. -/
def Silent (r : Run α) (m : Machine) : Prop := (r m).2.store.events = m.store.events

/-- Whether two computations are the same wherever a third one records nothing. Unless they run out
of fuel, that one does the same as they. -/
structure Watches (g r r' : Run α) : Prop where
  grows : g.Conserves Grows
  same : ∀ m, g.Silent m → r m = r' m
  kept : ∀ m, g.Silent m → (r m).1 ≠ .unfinished → g m = r m

/-- Goes on with the value of a computation or with its failure. -/
def follow (r : Run α) (k : Except Failure α → Run β) : Run β := fun m =>
  match r m with
  | (.ok a, m') => k (.ok a) m'
  | (.failed f, m') => k (.error f) m'
  | (.unfinished, m') => (.unfinished, m')

theorem bind_eq_follow (r : Run α) (k : α → Run β) :
    r >>= k = r.follow fun
      | .ok a => k a
      | .error f => Run.fail f := by
  funext m
  change Run.bind r k m = _
  unfold Run.bind follow
  cases r m with
  | mk o m' => cases o <;> rfl

theorem recover_eq_follow (r : Run α) (handler : Failure → Run α) :
    Run.recover r handler = r.follow fun
      | .ok a => Run.pure a
      | .error f => if f.isEvaluation then handler f else Run.fail f := by
  funext m
  unfold Run.recover follow
  cases r m with
  | mk o m' =>
      cases o with
      | ok a => rfl
      | unfinished => rfl
      | failed f =>
          dsimp only
          split <;> rfl

theorem exists_ofExcept_or_unfinished (run : Outcome α × Machine) :
    (∃ result m, run = (.ofExcept result, m)) ∨ ∃ m, run = (.unfinished, m) := by
  obtain ⟨o, m⟩ := run
  cases o with
  | ok a => exact .inl ⟨.ok a, m, rfl⟩
  | failed f => exact .inl ⟨.error f, m, rfl⟩
  | unfinished => exact .inr ⟨m, rfl⟩

theorem follow_eq {r : Run α} {k : Except Failure α → Run β} {m m' : Machine}
    {result : Except Failure α} (h : r m = (.ofExcept result, m')) :
    r.follow k m = k result m' := by
  unfold follow
  rw [h]
  cases result <;> rfl

theorem follow_eq_of_unfinished {r : Run α} {k : Except Failure α → Run β} {m m' : Machine}
    (h : r m = (.unfinished, m')) : r.follow k m = (.unfinished, m') := by
  unfold follow
  rw [h]

theorem conserves_follow {g : Run α} {k : Except Failure α → Run β} (hg : g.Conserves Grows)
    (hk : ∀ result, (k result).Conserves Grows) : (g.follow k).Conserves Grows := by
  intro m
  have hfirst := hg m
  rcases exists_ofExcept_or_unfinished (g m) with ⟨result, m', hrun⟩ | ⟨m', hrun⟩
  · rw [hrun] at hfirst
    rw [follow_eq hrun]
    exact conserved_grows.trans hfirst (hk result m')
  · rw [hrun] at hfirst
    rw [follow_eq_of_unfinished hrun]
    exact hfirst

theorem Silent.follow {g : Run α} {k : Except Failure α → Run β} {m : Machine}
    (hg : g.Conserves Grows) (hk : ∀ result, (k result).Conserves Grows)
    (h : (g.follow k).Silent m) :
    g.Silent m ∧ ∀ result m', g m = (.ofExcept result, m') → (k result).Silent m' := by
  obtain ⟨first, hfirst, -⟩ := hg m
  change (g m).2.store.events = m.store.events ++ first at hfirst
  have hlater : ∀ result m', g m = (.ofExcept result, m') →
      first = [] ∧ (k result).Silent m' := by
    intro result m' hrun
    obtain ⟨second, hsecond, -⟩ := hk result m'
    change (k result m').2.store.events = m'.store.events ++ second at hsecond
    unfold Silent at h
    rw [hrun] at hfirst
    rw [follow_eq hrun, hsecond, hfirst, List.append_assoc] at h
    -- What was recorded first would still be there at the end.
    have hnone : first ++ second = [] :=
      List.append_cancel_left (h.trans (List.append_nil _).symm)
    obtain ⟨hnone, hlast⟩ := List.append_eq_nil_iff.mp hnone
    exact ⟨hnone, hsecond.trans (by rw [hlast, List.append_nil])⟩
  refine ⟨?_, fun result m' hrun => (hlater result m' hrun).2⟩
  rcases exists_ofExcept_or_unfinished (g m) with ⟨result, m', hrun⟩ | ⟨m', hrun⟩
  · unfold Silent
    rw [hfirst, (hlater result m' hrun).1, List.append_nil]
  · unfold Silent at h ⊢
    rw [follow_eq_of_unfinished hrun] at h
    rw [hrun]
    exact h

theorem Silent.of_bind {g : Run α} {k : α → Run β} {m : Machine} {a : α}
    (h : (g >>= k).Silent m) (hg : g.Conserves Grows) (hk : ∀ a, (k a).Conserves Grows)
    (ha : (g m).1 = .ok a) : (k a).Silent (g m).2 := by
  rw [bind_eq_follow] at h
  refine (h.follow hg fun result => ?_).2 (.ok a) _ (Prod.ext ha rfl)
  cases result with
  | ok a => exact hk a
  | error f => exact .fail conserved_grows.toPreordered f

theorem Silent.of_framed {g : Run α} {frame : Frame} {m : Machine}
    (h : (framed frame g).Silent m) : g.Silent (m.calling frame) := by
  unfold Silent at h ⊢
  rw [framed_eq] at h
  cases hrun : g (m.calling frame) with
  | mk o m' =>
      rw [hrun] at h
      cases o <;> exact h

namespace Watches

variable {g r r' : Run α}

theorem refl (h : r.Conserves Grows) : Watches r r r := ⟨h, fun _ _ => rfl, fun _ _ _ => rfl⟩

theorem unfinished (h : g.Conserves Grows) : Watches g Run.unfinished Run.unfinished :=
  ⟨h, fun _ _ => rfl, fun _ _ h => absurd rfl h⟩

theorem of_record (h : g.Conserves Grows) (hg : ∀ m, ¬ g.Silent m) : Watches g r r' :=
  ⟨h, fun m hm => absurd hm (hg m), fun m hm => absurd hm (hg m)⟩

theorem follow {kg k k' : Except Failure α → Run β} (h : Watches g r r')
    (hk : ∀ result, Watches (kg result) (k result) (k' result)) :
    Watches (g.follow kg) (r.follow k) (r'.follow k') := by
  have hgrows := fun result => (hk result).grows
  have hboth : ∀ m, (g.follow kg).Silent m → r.follow k m = r'.follow k' m ∧
      ((r.follow k m).1 ≠ .unfinished → g.follow kg m = r.follow k m) := by
    intro m hm
    obtain ⟨hfirst, hsecond⟩ := hm.follow h.grows hgrows
    have hsame := h.same m hfirst
    have hkept := h.kept m hfirst
    rcases exists_ofExcept_or_unfinished (r m) with ⟨result, m', hrun⟩ | ⟨m', hrun⟩
    · have hwatching : g m = (.ofExcept result, m') :=
        (hkept (by rw [hrun]; cases result <;> nofun)).trans hrun
      have hsilent := hsecond result m' hwatching
      rw [follow_eq hrun, follow_eq (hsame.symm.trans hrun), follow_eq hwatching]
      exact ⟨(hk result).same m' hsilent, (hk result).kept m' hsilent⟩
    · rw [follow_eq_of_unfinished hrun, follow_eq_of_unfinished (hsame.symm.trans hrun)]
      exact ⟨rfl, fun hfinished => absurd rfl hfinished⟩
  exact ⟨conserves_follow h.grows hgrows, fun m hm => (hboth m hm).1, fun m hm => (hboth m hm).2⟩

theorem bind {kg k k' : α → Run β} (h : Watches g r r') (hk : ∀ a, Watches (kg a) (k a) (k' a)) :
    Watches (g >>= kg) (r >>= k) (r' >>= k') := by
  rw [bind_eq_follow, bind_eq_follow, bind_eq_follow]
  refine h.follow fun result => ?_
  cases result with
  | ok a => exact hk a
  | error f => exact .refl (.fail conserved_grows.toPreordered f)

theorem recover {kg k k' : Failure → Run α} (h : Watches g r r')
    (hk : ∀ f, Watches (kg f) (k f) (k' f)) :
    Watches (Run.recover g kg) (Run.recover r k) (Run.recover r' k') := by
  rw [recover_eq_follow, recover_eq_follow, recover_eq_follow]
  refine h.follow fun result => ?_
  cases result with
  | ok a => exact .refl (.pure conserved_grows.toPreordered a)
  | error f =>
      dsimp only
      split
      · exact hk f
      · exact .refl (.fail conserved_grows.toPreordered f)

theorem mapAll {γ : Type} {fg f f' : γ → Run α} (h : ∀ x, Watches (fg x) (f x) (f' x))
    (xs : List γ) : Watches (Run.mapAll fg xs) (Run.mapAll f xs) (Run.mapAll f' xs) := by
  have hpre := conserved_grows.toPreordered
  induction xs with
  | nil => exact .refl (.pure hpre [])
  | cons x rest ih =>
      exact (h x).bind fun y => ih.bind fun ys => .refl (.pure hpre (y :: ys))

theorem framed (h : Watches g r r') (frame : Frame) :
    Watches (Run.framed frame g) (Run.framed frame r) (Run.framed frame r') := by
  refine ⟨h.grows.framed frame, fun m hm => ?_, fun m hm hfinished => ?_⟩
  · rw [framed_eq, framed_eq, h.same _ hm.of_framed]
  · rw [framed_eq] at hfinished
    have hkept := h.kept _ hm.of_framed
    rw [framed_eq, framed_eq]
    cases hrun : r (m.calling frame) with
    | mk o m' =>
        rw [hrun] at hfinished hkept
        cases o with
        | unfinished => exact absurd rfl hfinished
        | ok a => rw [hkept nofun]
        | failed f => rw [hkept nofun]

theorem evaluation (h : Watches g r r') (scope : Option Nat) :
    Watches (Run.evaluation scope g) (Run.evaluation scope r) (Run.evaluation scope r') where
  grows := h.grows.evaluation scope
  same m hm := by
    rw [evaluation_eq, evaluation_eq, h.same (m.evaluating scope) hm]
  kept m hm hfinished := by
    rw [evaluation_eq, evaluation_eq, h.kept (m.evaluating scope) hm hfinished]

theorem inChild (h : Watches g r r') :
    Watches (Run.inChild g) (Run.inChild r) (Run.inChild r') where
  grows m := h.grows m.opening
  same m hm := by
    rw [inChild_eq, inChild_eq, h.same m.opening hm]
  kept m hm hfinished := by
    rw [inChild_eq, inChild_eq, h.kept m.opening hm hfinished]

end Watches

end Run

namespace Setting

open Run

/-- Whether the primitives that count, all but `render`, lose no record. -/
def Records (env : Setting) : Prop :=
  ∀ name p, name ≠ "render" → env.primitives.find? name = some p → ∀ e, (p e).Conserves Grows

/-- Whether two evaluators have the same primitives but for `render`. -/
def SharesPrimitives (env env' : Setting) : Prop :=
  ∀ name, name ≠ "render" → env.primitives.find? name = env'.primitives.find? name

/-- Whether evaluation with some fuel and one unit more is watched. -/
structure WatchedWith (env env' : Setting) (fuel : Nat) : Prop where
  dispatch : ∀ x, Watches (env.listening.dispatch (fuel + 1) x) (env.dispatch fuel x)
    (env'.dispatch fuel x)
  invoke : ∀ e, Watches (env.listening.invoke (fuel + 1) e) (env.invoke fuel e)
    (env'.invoke fuel e)
  perform : ∀ a, a.Conserves Grows → Watches (env.listening.perform (fuel + 1) a)
    (env.perform fuel a) (env'.perform fuel a)
  invokeNode : ∀ x, Watches (env.listening.invokeNode (fuel + 1) x) (env.invokeNode fuel x)
    (env'.invokeNode fuel x)

theorem find?_listening (env : Setting) {name : String} (h : name ≠ "render") :
    env.listening.primitives.find? name = env.primitives.find? name := by
  unfold Registry.find? listening
  rw [List.find?_cons_of_neg (by simpa using Ne.symm h)]

section Step

variable {env env' : Setting} {fuel : Nat}

theorem conserves_listening (h : env.Records) :
    env.listening.Conserves Grows fun _ => True where
  resolveType path := fun t s => ⟨[.typeRequested path], rfl, fun _ _ => trivial⟩
  resolveMember _ name types := fun t s =>
    ⟨[.memberRequested "" name types], rfl, fun _ _ => trivial⟩
  exposed _ _ _ _ _ _ := trivial
  call _ _ _ := .pure conserved_grows.toPreordered _
  primitives name p hp e := by
    by_cases hname : name = "render"
    · subst hname
      cases hp
      exact .note (.done _)
    · exact h name p hname (env.find?_listening hname ▸ hp) e

variable (henv : env.Records) (hshared : env.SharesPrimitives env')
include henv

theorem grows_listening (fuel : Nat) : env.listening.ConservesWith Grows fuel :=
  conservesWith conserved_grows (conserves_listening henv) fuel

omit henv in
theorem not_silent_of_events {α : Type} {r : Run α} {m : Machine} (event : Event)
    (h : (r m).2.store.events = m.store.events ++ [event]) : ¬ r.Silent m := by
  intro hsilent
  have hsame := h.symm.trans hsilent
  simp at hsame

/-- The invocation of a member of a type begins with the type, which the host is asked for. -/
theorem watches_invokeStatic (path : List String) (member : String) (e : Invocation)
    {r r' : Run Value} :
    Watches (env.listening.invokeStatic (env.listening.dispatch (fuel + 1)) path member e)
      r r' := by
  have hgrows := conserves_invokeStatic conserved_grows (conserves_listening henv)
    (grows_listening henv (fuel + 1)).dispatch path member e
  exact .of_record hgrows fun m => not_silent_of_events (.typeRequested path) rfl

theorem watches_invokeInstance (h : env.WatchedWith env' fuel) (member : String) (e : Invocation) :
    Watches (env.listening.invokeInstance (env.listening.dispatch (fuel + 1)) member e)
      (env.invokeInstance (env.dispatch fuel) member e)
      (env'.invokeInstance (env'.dispatch fuel) member e) := by
  have hpre := conserved_grows.toPreordered
  unfold invokeInstance
  cases e.parameters with
  | nil => exact .refl (.fail hpre _)
  | cons x rest =>
      refine (h.dispatch x).bind fun receiver => (Watches.refl (.visit hpre _)).bind fun _ => ?_
      split
      · exact .refl (.fail hpre _)
      · refine (Watches.mapAll h.dispatch rest).bind fun arguments =>
          (Watches.refl (.visit hpre _)).bind fun _ => ?_
        have hgrows := conserves_member conserved_grows (conserves_listening henv) receiver member
          (some (arguments.map Value.type))
        exact .of_record (hgrows _ _ _ _) fun m =>
          not_silent_of_events (.memberRequested "" member _) rfl

omit henv in
theorem watches_dispatch_succ (h : env.WatchedWith env' fuel) (x : Node) :
    Watches (env.listening.dispatch (fuel + 1 + 1) x) (env.dispatch (fuel + 1) x)
      (env'.dispatch (fuel + 1) x) := by
  have hpre := conserved_grows.toPreordered
  rw [dispatch.eq_def env.listening, dispatch.eq_def env, dispatch.eq_def env']
  refine (Watches.refl (.visit hpre _)).bind fun _ => ?_
  cases x with
  | error message span => exact .refl (.fail hpre _)
  | literal v span => exact .refl (.pure hpre _)
  | identifier name span => exact .refl fun _ => hpre.refl _
  | list xs span =>
      exact (Watches.mapAll h.dispatch xs).bind fun vs =>
        .refl (.ofEffect (conserved_grows.adopt _))
  | quote inner span => exact .refl (.pure hpre _)
  | invocation head parameters span => exact h.invoke ⟨head, parameters, span⟩
  | instanceMember member span => exact .refl (.fail hpre _)
  | staticMember path member span => exact .refl (.fail hpre _)

omit henv in
theorem not_silent_noting (fuel : Nat) (v w : Value) (m : Machine) :
    ¬ (env.perform (fuel + 1) (.note v (.done w))).Silent m := by
  apply not_silent_of_events (.noted v)
  rw [perform]
  cases fuel <;> rfl

theorem watches_render (e : Invocation) (line : String) (frame : Frame) {r r' : Run Value} :
    Watches (Run.traceLine line >>= fun _ =>
      Run.framed frame (env.listening.perform (fuel + 1) (Primitive.listening e))) r r' := by
  have htrace := Run.Conserves.traceLine conserved_grows.toPreordered line
  have hcall : ∀ _ : Unit, (Run.framed frame
      (env.listening.perform (fuel + 1) (Primitive.listening e))).Conserves Grows := fun _ =>
    ((grows_listening henv (fuel + 1)).perform _ (.note (.done _))).framed frame
  refine .of_record (.bind conserved_grows.toPreordered htrace hcall) fun m hm => ?_
  have hframed := hm.of_bind htrace hcall rfl
  exact not_silent_noting fuel _ _ _ hframed.of_framed

include hshared in
theorem watches_invoke_succ (h : env.WatchedWith env' fuel) (e : Invocation) :
    Watches (env.listening.invoke (fuel + 1 + 1) e) (env.invoke (fuel + 1) e)
      (env'.invoke (fuel + 1) e) := by
  have hpre := conserved_grows.toPreordered
  rw [invoke, invoke, invoke]
  cases e.head with
  | identifier name place =>
      dsimp only
      by_cases hname : name = "render"
      · subst hname
        exact watches_render henv e _ _
      · rw [env.find?_listening hname, hshared name hname]
        cases hfind : env'.primitives.find? name with
        | none => exact .refl (.fail hpre _)
        | some p =>
            have hp := henv name p hname ((hshared name hname).trans hfind) e
            exact (Watches.refl (.traceLine hpre _)).bind fun _ => (h.perform _ hp).framed _
  | staticMember path member _ => exact watches_invokeStatic henv path member e
  | instanceMember member _ => exact watches_invokeInstance henv h member e
  | _ => exact .refl (.fail hpre _)

omit henv in
theorem watches_invokeNode_succ (h : env.WatchedWith env' fuel) (x : Node) :
    Watches (env.listening.invokeNode (fuel + 1 + 1) x) (env.invokeNode (fuel + 1) x)
      (env'.invokeNode (fuel + 1) x) := by
  cases x with
  | invocation head parameters span =>
      rw [invokeNode, invokeNode, invokeNode]
      exact h.invoke ⟨head, parameters, span⟩
  | _ => exact .refl (.fail conserved_grows.toPreordered _)

omit henv in
theorem conserves_bindAllHere (bindings : List (String × Value)) :
    (Run.mapAll (fun (b : String × Value) => Run.bindHere b.1 b.2) bindings).Conserves Grows := by
  refine .mapAll conserved_grows.toPreordered (fun b m => SameRecord.adds ?_) bindings
  unfold Run.bindHere Run.bindAt
  split <;> rfl

omit henv in
theorem watches_perform_succ (h : env.WatchedWith env' fuel) {a : Action} (ha : a.Conserves Grows) :
    Watches (env.listening.perform (fuel + 1 + 1) a) (env.perform (fuel + 1) a)
      (env'.perform (fuel + 1) a) := by
  have hpre := conserved_grows.toPreordered
  -- A value on its way to a primitive is brought up to date.
  have hnext : ∀ {g r r' : Run Value} {next : Value → Action}, Watches g r r' →
      (∀ v, (next v).Conserves Grows) →
      Watches (do env.listening.perform (fuel + 1) (next (← Run.ofEffect (Effect.settle (← g)))))
        (do env.perform fuel (next (← Run.ofEffect (Effect.settle (← r)))))
        (do env'.perform fuel (next (← Run.ofEffect (Effect.settle (← r'))))) :=
    fun hr hnext => hr.bind fun v =>
      (Watches.refl (.ofEffect (.settle hpre v))).bind fun v => h.perform _ (hnext v)
  rw [perform.eq_def env.listening, perform.eq_def env, perform.eq_def env']
  cases ha with
  | done v => exact .refl (.ofEffect (conserved_grows.adopt v))
  | fail f => exact .refl (.fail hpre f)
  | eval hv => exact hnext ((h.dispatch _).evaluation none) hv
  | evalIn hscope hv =>
      exact (Watches.refl hscope).bind fun scope => hnext ((h.dispatch _).evaluation scope) hv
  | invoke hv => exact hnext (h.invokeNode _) hv
  | @within bindings body next hblock hbody hv =>
      have hbody := (Watches.refl (conserves_bindAllHere bindings)).bind fun _ =>
        h.perform body hbody
      exact hbody.inChild.bind fun v => h.perform _ (hv v)
  | bind hbind ha => exact (Watches.refl hbind).bind fun _ => h.perform _ ha
  | recover hbody hhandler hv =>
      exact ((h.perform _ hbody).recover fun f => h.perform _ (hhandler f)).bind fun v =>
        h.perform _ (hv v)
  | settle hvs =>
      exact (Watches.refl (.ofEffect (.of_unchanged hpre fun _ => rfl))).bind fun s =>
        h.perform _ (hvs _)
  | view hnames =>
      exact (Watches.refl fun _ => hpre.refl _).bind fun m => h.perform _ (hnames _)
  | running hnames =>
      exact (Watches.refl fun _ => hpre.refl _).bind fun m => h.perform _ (hnames _)
  | effect hcomputation hv =>
      exact (Watches.refl (.ofEffect hcomputation)).bind fun v =>
        (Watches.refl (.ofEffect (conserved_grows.adopt v))).bind fun v => h.perform _ (hv v)
  | note ha =>
      exact (Watches.refl (.ofEffect (conserved_grows.note _))).bind fun _ => h.perform _ ha
  | trace ha => exact (Watches.refl (.traceLine hpre _)).bind fun _ => h.perform _ ha

include hshared in
theorem watchedWith (fuel : Nat) : env.WatchedWith env' fuel := by
  induction fuel with
  | zero =>
      have hgrows := grows_listening henv 1
      constructor
      · exact fun x => .unfinished (hgrows.dispatch x)
      · exact fun e => .unfinished (hgrows.invoke e)
      · exact fun a ha => .unfinished (hgrows.perform a ha)
      · exact fun x => .unfinished (hgrows.invokeNode x)
  | succ fuel ih =>
      constructor
      · exact watches_dispatch_succ ih
      · exact watches_invoke_succ henv hshared ih
      · exact fun a => watches_perform_succ ih
      · exact watches_invokeNode_succ ih

end Step

section Nodes

variable [HostClasses] {env env' : Setting}

theorem records_of_primitives
    (h : ∀ entry ∈ env.primitives,
      entry ∈ Primitive.standard ∨ ∃ c, entry ∈ Primitive.library c) : env.Records := by
  intro name p hname hp e
  obtain ⟨entry, hfind, rfl⟩ := Option.map_eq_some_iff.mp hp
  obtain rfl : entry.1 = name := by simpa using List.find?_some hfind
  rcases h entry (List.mem_of_find?_eq_some hfind) with hmem | ⟨c, hmem⟩
  · exact Primitive.conserves_standard hmem e
  · exact Primitive.conserves_library conserved_grows (fun hrender => absurd hrender hname) hmem e

/-- Evaluations that ask the host for nothing resolve no member of it. -/
theorem resolvesNoMember_of_silent {xs : List Node} {m : Machine} (henv : env.WritesOnly)
    (h : ∀ fuel, (env.listening.evalEach fuel xs).Silent m) : env.ResolvesNoMember xs m := by
  intro fuel
  have hrecords : env.Records := records_of_primitives fun entry hentry =>
    (henv entry hentry).imp_right fun ⟨c, hmem, _⟩ => ⟨c, hmem⟩
  have hshared : env.SharesPrimitives env.withoutMembers := fun _ _ => rfl
  have hwatched := watchedWith hrecords hshared fuel
  exact (Watches.mapAll (fun x => (hwatched.dispatch x).evaluation none) xs).same m (h (fuel + 1))

end Nodes

end Setting

namespace Runner

open Run

/-- The runner that records each use of the host and of templates instead. -/
def listening (r : Runner) : Runner := { r with setting := r.setting.listening }

theorem watches_evalLastIn {env env' : Setting} {fuel : Nat} (h : env.WatchedWith env' fuel)
    (xs : List Node) (last : Value) :
    Watches (evalLastIn env.listening (fuel + 1) xs last) (evalLastIn env fuel xs last)
      (evalLastIn env' fuel xs last) := by
  induction xs generalizing last with
  | nil => exact .refl (.ofEffect (.settle conserved_grows.toPreordered last))
  | cons x rest ih => exact ((h.dispatch x).evaluation none).bind ih

variable [HostClasses] {r : Runner}

theorem events_finish (env : Setting) (source : String) (result : Outcome Value) (m : Machine) :
    (finish env source result m).2.machine.store.events = m.store.events := by
  rcases machine_finish env source result m with h | ⟨line, h⟩
  · rw [h]
  · rw [h]
    unfold Run.traceLine Run.modify
    dsimp only
    split <;> rfl

theorem answer_finish (env env' : Setting) (source : String) (result : Outcome Value)
    (m : Machine) : (finish env source result m).1 = (finish env' source result m).1 := by
  unfold finish
  cases settled result with
  | ok v => rfl
  | error f =>
      dsimp only
      cases m.failureReport? source f <;> rfl

/-- A script that asks the host for nothing and renders nothing is answered as without both. -/
theorem answersAlone_of_silent {fuel : Nat} {source : String}
    (hprimitives : ∀ entry ∈ r.setting.primitives,
      entry ∈ Primitive.standard ∨ ∃ c, entry ∈ Primitive.library c)
    (h : (r.listening.handleScriptIn (fuel + 1) source).2.machine.store.events =
      r.machine.store.events) : r.AnswersAlone fuel source := by
  have hrecords := Setting.records_of_primitives hprimitives
  have hshared : r.setting.SharesPrimitives r.alone.setting := by
    intro name hname
    have hfilter : (fun entry : String × Primitive => entry.1 == name) = fun entry =>
        decide (decide (entry.1 ≠ "render") = true ∧ (entry.1 == name) = true) := by
      funext entry
      grind
    unfold Registry.find? alone
    rw [List.find?_filter, ← hfilter]
  unfold AnswersAlone
  cases hnodes : parseMany source with
  | error e => rw [handleScriptIn, handleScriptIn, hnodes]
  | ok nodes =>
      have hwatched := watches_evalLastIn (Setting.watchedWith hrecords hshared fuel) nodes .null
      have hsilent : (evalLastIn r.setting.listening (fuel + 1) nodes .null).Silent
          { r.machine with frames := [] } := by
        rw [handleScriptIn, hnodes] at h
        exact (events_finish r.setting.listening source _ _).symm.trans h
      rw [handleScriptIn, handleScriptIn, hnodes]
      change (finish r.setting source _ _).1 = (finish r.alone.setting source _ _).1
      rw [hwatched.same _ hsilent, answer_finish r.setting r.alone.setting]
      rfl

end Runner

end HostedLisp
