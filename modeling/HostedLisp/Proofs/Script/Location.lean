import HostedLisp.Host.Sample
import HostedLisp.Proofs.Evaluation.Location
import HostedLisp.Proofs.Script.Concatenation
import HostedLisp.Proofs.Script.Excerpt

namespace HostedLisp.Runner

open Site Trail

/-- The point at the end of the evaluation of expressions in order. -/
def trailOfLast (env : Setting) : List Node → Trail
  | [] => still
  | x :: rest =>
      andThen (env.eval x none)
        (entering (Machine.evaluating · none) (env.trail Setting.ample x)) fun _ =>
      trailOfLast env rest

theorem locates_evalLast (env : Setting) (xs : List Node) (last : Value) :
    Locates (fun _ => True) (evalLast env xs last) (trailOfLast env xs) := by
  induction xs generalizing last with
  | nil => exact .sure (.ofEffect _) fun _ => ⟨_, rfl⟩
  | cons x rest ih =>
      have heval := ((env.findsItsPlace Setting.ample).dispatch x).evaluation none
      exact heval.bind (fun _ _ _ _ => trivial) fun v => ih v

theorem token_of_failureReport? [HostClasses] {m : Machine} {source : String} {f : Failure}
    {message : String} {token : Option LocatedToken}
    (h : m.failureReport? source f = .ok (.failure message token)) :
    token = m.currentToken?.map (LocatedToken.of source) := by
  rw [Machine.failureReport?] at h
  cases htrace : m.stackTrace? with
  | error f' =>
      rw [htrace] at h
      cases h
  | ok trace =>
      rw [htrace] at h
      cases h
      rfl

/-- A script whose evaluation fails is reported where the innermost expression begins that was being
evaluated then. Only if this is an invocation of a primitive, or one that a primitive had run, may
something else be at hand, an expression in it whose evaluation has ended since; then the report is
about that one. -/
theorem handleScript_locates_failure [HostClasses] (r : Runner) (source : String)
    (nodes : List Node) (hread : parseMany source = .ok nodes) (f : Failure)
    (hfails : (evalLast r.setting nodes .null { r.machine with frames := [] }).1 = .failed f)
    (message : String) (token : Option LocatedToken)
    (hreport : (r.handleScript source).1 = .ok (.failure message token)) :
    let site := trailOfLast r.setting nodes .outermost { r.machine with frames := [] }
    ∃ t enclosing, site.pending = t :: enclosing ∧ (site.strayed = none ∨ t.Strays) ∧
      token = (site.strayed.getD t.node).span.start.map (LocatedToken.of source) := by
  intro site
  have hreached := locates_evalLast r.setting nodes .null { r.machine with frames := [] } .outermost
    trivial nofun
  obtain ⟨t, enclosing, hpending, hfaithful⟩ := hreached.faithful f hfails
  have hcurrent := hreached.isAt _ (atHand?_of_pending hpending)
  refine ⟨t, enclosing, hpending, hfaithful, ?_⟩
  rw [handleScript_eq_finish hread, finish, hfails, settled] at hreport
  dsimp only at hreport
  cases hwritten : (evalLast r.setting nodes .null
      { r.machine with frames := [] }).2.failureReport? source f with
  | error f' =>
      rw [hwritten] at hreport
      cases hreport
  | ok report =>
      rw [hwritten] at hreport
      cases hreport
      rw [token_of_failureReport? hwritten, Machine.currentToken?, hcurrent]

/-- Whether an evaluation failed. -/
def failed : Outcome Value → Bool
  | .failed _ => true
  | _ => false

theorem exists_of_failed {o : Outcome Value} (h : failed o = true) : ∃ f, o = .failed f := by
  cases o with
  | ok v => cases h
  | failed f => exact ⟨f, rfl⟩
  | unfinished => cases h

theorem exists_of_reported? {x : Except Failure ScriptResult} (h : (reported? x).isSome = true) :
    ∃ message token, x = .ok (.failure message token) := by
  obtain ⟨report, hreport⟩ := Option.isSome_iff_exists.mp h
  exact ⟨report.1, report.2, eq_of_reported? h hreport⟩

open scoped Sample

/-- A member that is not there is reported at its invocation, although the last thing evaluated was
its argument. -/
theorem handleScript_locates_missing_member :
    let host : Reflection := ⟨Builtin.catalogue, [], false, false⟩
    let r : Runner := .start ⟨host.host, Primitive.standard⟩ .empty
    let source := "(if true\n  (.missing 'abc') 2)"
    ∃ message, (r.handleScript source).1 =
      .ok (.failure message (some (.of source ⟨11, .parenOpen, some "("⟩))) := by
  intro host r source
  let start : Machine := { r.machine with frames := [] }
  let site := fun nodes => trailOfLast r.setting nodes .outermost start
  obtain ⟨nodes, hread, hsite⟩ : ∃ nodes, parseMany source = .ok nodes ∧
      (failed (evalLast r.setting nodes .null start).1 && (site nodes).strayed.isNone &&
        (site nodes).innermost?.map (fun x => x.span.start) ==
          some (some ⟨11, .parenOpen, some "("⟩)) :=
    exists_parseMany (by decide +kernel)
  rw [Bool.and_eq_true, Bool.and_eq_true, Option.isNone_iff_eq_none, beq_iff_eq] at hsite
  obtain ⟨⟨hfailed, hstrayed⟩, hinnermost⟩ := hsite
  obtain ⟨f, hfails⟩ := exists_of_failed hfailed
  obtain ⟨message, token, hreport⟩ := exists_of_reported?
    (show (reported? (r.handleScript source).1).isSome by decide +kernel)
  obtain ⟨t, enclosing, hpending, -, htoken⟩ :=
    handleScript_locates_failure r source nodes hread f hfails message token hreport
  have hstart : t.node.span.start = some ⟨11, .parenOpen, some "("⟩ := by
    rw [innermost?, show (site nodes).pending = t :: enclosing from hpending] at hinnermost
    exact Option.some.inj hinnermost
  rw [show (trailOfLast _ _ _ _).strayed = none from hstrayed, Option.getD_none, hstart] at htoken
  rw [htoken] at hreport
  exact ⟨message, hreport⟩

/-- A condition that is none is reported at the condition, which has been evaluated, and not at the
invocation that fails. -/
theorem handleScript_locates_condition :
    ¬ ∀ (r : Runner) (source : String) (nodes : List Node) (f : Failure) (message : String)
        (token : Option LocatedToken),
      parseMany source = .ok nodes →
      (evalLast r.setting nodes .null { r.machine with frames := [] }).1 = .failed f →
      (r.handleScript source).1 = .ok (.failure message token) →
      let site := trailOfLast r.setting nodes .outermost { r.machine with frames := [] }
      ∃ t enclosing, site.pending = t :: enclosing ∧
        token = t.node.span.start.map (LocatedToken.of source) := by
  intro h
  let r : Runner := .start ⟨Table.host, Primitive.standard⟩ .empty
  let source := "(if 1 2 3)"
  let start : Machine := { r.machine with frames := [] }
  let site := fun nodes => trailOfLast r.setting nodes .outermost start
  obtain ⟨nodes, hread, hsite⟩ : ∃ nodes, parseMany source = .ok nodes ∧
      (failed (evalLast r.setting nodes .null start).1 &&
        (site nodes).innermost?.map (fun x => x.span.start) ==
          some (some ⟨0, .parenOpen, some "("⟩)) :=
    exists_parseMany (by decide +kernel)
  rw [Bool.and_eq_true, beq_iff_eq] at hsite
  obtain ⟨f, hfails⟩ := exists_of_failed hsite.1
  have hreport : (reported? (r.handleScript source).1).map (fun report => report.2) =
      some (some ⟨⟨4, .integer, some "1"⟩, ⟨1, 5⟩⟩) := by
    decide +kernel
  obtain ⟨⟨message, token⟩, hfailure, rfl⟩ := Option.map_eq_some_iff.mp hreport
  obtain ⟨t, enclosing, hpending, htoken⟩ :=
    h r source nodes f message _ hread hfails
      (eq_of_reported? (by rw [hfailure]; rfl) hfailure)
  have hstart : t.node.span.start = some ⟨0, .parenOpen, some "("⟩ := by
    have hinnermost := hsite.2
    rw [innermost?, show (site nodes).pending = t :: enclosing from hpending] at hinnermost
    exact Option.some.inj hinnermost
  rw [hstart] at htoken
  have hother : LocatedToken.of source ⟨0, .parenOpen, some "("⟩ ≠
      ⟨⟨4, .integer, some "1"⟩, ⟨1, 5⟩⟩ := by
    decide +kernel
  exact hother (Option.some.inj htoken).symm

end HostedLisp.Runner
