import HostedLisp.Host.Sample
import HostedLisp.Proofs.Evaluation.Depth
import HostedLisp.Proofs.Primitive.Positions
import HostedLisp.Proofs.Script.Independence
import HostedLisp.Proofs.Source.Concatenation
import HostedLisp.Proofs.Source.Expression

namespace HostedLisp

namespace Node

mutual

/-- Whether something in a node is quoted. -/
def quotes : Node → Bool
  | quote .. => true
  | invocation head parameters _ => quotes head || anyQuotes parameters
  | list items _ => anyQuotes items
  | _ => false

/-- Whether something in one of the nodes is quoted. -/
def anyQuotes : List Node → Bool
  | [] => false
  | x :: xs => quotes x || anyQuotes xs

end

mutual

/-- Only quotes and errors show where they were read. -/
theorem bare_moved (k : Nat) : (x : Node) → x.IsExpression → x.quotes = false →
    (x.moved k).bare = x.bare
  | invocation head parameters _, hx, hq => by
      rw [quotes, Bool.or_eq_false_iff] at hq
      rw [moved, bare, bare, bare_moved k head hx.1 hq.1,
        bareAll_movedAll k parameters hx.2 hq.2]
  | list items _, hx, hq => by rw [moved, bare, bare, bareAll_movedAll k items hx hq]
  | identifier .., _, _ | instanceMember .., _, _ | staticMember .., _, _ | literal .., _, _ => rfl
  | quote .., _, hq => nomatch hq
  | error .., hx, _ => hx.elim
termination_by structural x => x

theorem bareAll_movedAll (k : Nat) : (xs : List Node) → AllExpressions xs → anyQuotes xs = false →
    bareAll (movedAll k xs) = bareAll xs
  | [], _, _ => rfl
  | x :: xs, hxs, hq => by
      rw [anyQuotes, Bool.or_eq_false_iff] at hq
      rw [movedAll, bareAll, bareAll, bare_moved k x hxs.1 hq.1, bareAll_movedAll k xs hxs.2 hq.2]
termination_by structural xs => xs

end

end Node

/-- The report of a failure with a source, at the first token of the node at hand, where `calls`
tells of the running calls. -/
def reportAt (source : String) (f : Failure) (token : Option Token) (calls : List String) :
    ScriptResult :=
  let token := token.map (LocatedToken.of source)
  let place := match token with
    | some t => t.placeText :: t.excerptParts source
    | none => []
  .failure (below (causeText f :: place ++ calls)) token

theorem Machine.failureReport?_eq [HostClasses] (m : Machine) (source : String) (f : Failure) :
    m.failureReport? source f = m.stackTrace?.map fun trace =>
      reportAt source f m.currentToken? (if trace.isEmpty then [] else [trace]) := by
  rw [failureReport?]
  cases m.stackTrace? <;> rfl

namespace Runner

/-- Whether the answers to two sources agree in status, value as far as `f` shows it, class and text
of the failure, and running calls: in all but places and excerpts of the source. -/
inductive Agree {α : Type} (f : Value → α) (source source' : String) :
    Except Failure ScriptResult → Except Failure ScriptResult → Prop
  | success {v v' : Value} (h : f v = f v') :
      Agree f source source' (.ok (.success v)) (.ok (.success v'))
  | failure (cause : Failure) (token token' : Option Token) (calls : List String) :
      Agree f source source' (.ok (reportAt source cause token calls))
        (.ok (reportAt source' cause token' calls))
  | unreported (cause : Failure) : Agree f source source' (.error cause) (.error cause)

section Sequence

variable {env : Setting}

theorem evalLast_append (xs : List Node) {ys : List Node} (hys : ys ≠ []) (last : Value) :
    evalLast env (xs ++ ys) last = Run.bind (evalLast env xs last) (evalLast env ys) := by
  induction xs generalizing last with
  | nil =>
      -- The value so far is brought up to date before it is forgotten.
      cases ys with
      | nil => exact absurd rfl hys
      | cons y ys => rfl
  | cons x xs ih =>
      funext m
      change Run.bind (env.eval x none) _ m = Run.bind (Run.bind (env.eval x none) _) _ m
      simp only [Run.bind]
      cases env.eval x none m with
      | mk o m' =>
          cases o with
          | ok v => exact congrFun (ih v) m'
          | failed f => rfl
          | unfinished => rfl

theorem depth_evalLast (xs : List Node) (last : Value) (m : Machine) :
    (evalLast env xs last m).2.depth = m.depth := by
  induction xs generalizing last m with
  | nil => rfl
  | cons x xs ih =>
      have hx := env.depth_eval x none m
      change (Run.bind (env.eval x none) _ m).2.depth = m.depth
      unfold Run.bind
      cases hr : env.eval x none m with
      | mk o m' =>
          rw [hr] at hx
          cases o with
          | ok v => exact (ih v m').trans hx
          | failed f => exact hx
          | unfinished => exact hx

/-- An outermost evaluation forgets earlier frames, so that it does not matter whether they were
forgotten before. -/
theorem evalLast_frames {ys : List Node} (hys : ys ≠ []) (last last' : Value) {m : Machine}
    (hdepth : m.depth = 0) :
    evalLast env ys last m = evalLast env ys last' { m with frames := [] } := by
  cases ys with
  | nil => exact absurd rfl hys
  | cons y ys =>
      have heval : env.eval y none m = env.eval y none { m with frames := [] } := by
        rw [Setting.eval, Run.evaluation_eq, Run.evaluation_eq, Machine.evaluating,
          Machine.evaluating, if_pos hdepth, if_pos hdepth]
      change Run.bind (env.eval y none) _ m = Run.bind (env.eval y none) _ _
      rw [Run.bind, Run.bind, heval]

theorem alike_evalLast (hblind : ∀ entry ∈ env.primitives, Primitive.Blind entry.2)
    {xs ys : List Node} (h : Node.bareAll xs = Node.bareAll ys) (last : Value) :
    (evalLast env xs last).Alike (evalLast env ys last) := by
  induction xs generalizing ys last with
  | nil =>
      cases ys with
      | nil => exact .ofEffect _
      | cons y ys => cases h
  | cons x xs ih =>
      cases ys with
      | nil => cases h
      | cons y ys =>
          obtain ⟨hx, hxs⟩ := List.cons.inj h
          exact (Setting.alike_eval hblind hx none).bind fun v => ih hxs v

end Sequence

/-- The runner without what tells where the code was read that is running, or was when a failure
arose. -/
def bare (r : Runner) : Runner := { r with machine := r.machine.bare }

theorem agree_finish [HostClasses] (env : Setting) (source source' : String)
    (result : Outcome Value) {m m' : Machine} (hm : m.bare = m'.bare) :
    Agree id source source' (finish env source result m).1 (finish env source' result m').1 ∧
      (finish env source result m).2.bare = (finish env source' result m').2.bare := by
  unfold finish
  cases settled result with
  | ok v => exact ⟨.success rfl, congrArg (Runner.mk env) hm⟩
  | error f =>
      have htrace : m.stackTrace? = m'.stackTrace? := by
        rw [← m.stackTrace?_bare, hm, m'.stackTrace?_bare]
      dsimp only
      rw [m.failureReport?_eq, m'.failureReport?_eq, htrace]
      cases m'.stackTrace? with
      | error f' => exact ⟨.unreported f', congrArg (Runner.mk env) hm⟩
      | ok trace =>
          exact ⟨.failure f _ _ _, congrArg (Runner.mk env) (Run.Alike.traceLine _ m m' hm).2⟩

theorem agree_finish_self [HostClasses] (env : Setting) (source source' : String)
    (result : Outcome Value) (m : Machine) :
    Agree id source source' (finish env source result m).1 (finish env source' result m).1 ∧
      (finish env source result m).2 = (finish env source' result m).2 := by
  refine ⟨(agree_finish env source source' result rfl).1, ?_⟩
  unfold finish
  cases settled result with
  | ok v => rfl
  | error f =>
      dsimp only
      rw [m.failureReport?_eq, m.failureReport?_eq]
      cases m.stackTrace? <;> rfl

theorem finish_ne_success [HostClasses] {env : Setting} {source : String} {result : Outcome Value}
    {m : Machine} {f : Failure} (h : settled result = .error f) (v : Value) :
    (finish env source result m).1 ≠ .ok (.success v) := by
  unfold finish
  rw [h]
  dsimp only
  rw [m.failureReport?_eq]
  cases m.stackTrace? <;> nofun

/-- The text of the value of a script that succeeded. -/
def answerText? [HostClasses] : Except Failure ScriptResult → Option String
  | .ok (.success v) => some v.toText
  | _ => none

theorem exists_of_answerText? [HostClasses] {x : Except Failure ScriptResult}
    (h : (answerText? x).isSome) : ∃ v, x = .ok (.success v) := by
  cases x with
  | error f => cases h
  | ok result =>
      cases result with
      | success v => exact ⟨v, rfl⟩
      | failure message token => cases h

theorem answerText?_reportAt [HostClasses] (source : String) (f : Failure) (token : Option Token)
    (calls : List String) : answerText? (.ok (reportAt source f token calls)) = none := rfl

theorem Agree.answerText?_eq [HostClasses] {source source' : String}
    {x y : Except Failure ScriptResult}
    (h : Agree Value.toText source source' x y) : answerText? x = answerText? y := by
  cases h with
  | success h => exact congrArg some h
  | failure cause => rw [answerText?_reportAt, answerText?_reportAt]
  | unreported cause => rfl

theorem exists_parseMany {source : String} {p : List Node → Bool}
    (h : (parseMany source).toOption.any p) : ∃ xs, parseMany source = .ok xs ∧ p xs := by
  cases hparse : parseMany source with
  | ok xs =>
      rw [hparse] at h
      exact ⟨xs, rfl, h⟩
  | error e =>
      rw [hparse] at h
      cases h

/-- A script of two scripts with a line break between them is answered as the second one, in the
state that the first one left, and leaves behind what that leaves behind, if the first one succeeds.
Here the second one stands behind as many blanks as there are characters in front of it; but it may
stand alone if it quotes nothing and the primitives do not look at the places of code. Otherwise the
script is answered as the first one, and leaves behind what that leaves behind. -/
theorem handleScript_lines [HostClasses] (r : Runner) (hdepth : r.machine.depth = 0) {a b : String}
    {xs ys : List Node} (ha : parseMany a = .ok xs) (hb : parseMany b = .ok ys) (hys : ys ≠ []) :
    let lines := a ++ "\n" ++ b
    let placed := blanks (a.length + 1) ++ b
    let first := r.handleScript a
    (∀ v, first.1 = .ok (.success v) →
      (Agree id lines placed (r.handleScript lines).1 (first.2.handleScript placed).1 ∧
        (r.handleScript lines).2 = (first.2.handleScript placed).2) ∧
      (Node.anyQuotes ys = false → (∀ entry ∈ r.setting.primitives, Primitive.Blind entry.2) →
        Agree id lines b (r.handleScript lines).1 (first.2.handleScript b).1 ∧
          (r.handleScript lines).2.bare = (first.2.handleScript b).2.bare)) ∧
    ((∀ v, first.1 ≠ .ok (.success v)) →
      Agree id lines a (r.handleScript lines).1 first.1 ∧
        (r.handleScript lines).2 = first.2) := by
  intro lines placed first
  have hplaced := parseMany_blanks hb (a.length + 1)
  have hys' := Node.movedAll_ne_nil (a.length + 1) hys
  have hfirst : first = _ := handleScript_eq_finish ha
  have hlines := handleScript_eq_finish (r := r) (parseMany_lines ha hb)
  rw [evalLast_append xs hys', Run.bind] at hlines
  have hdepth' : (evalLast r.setting xs .null { r.machine with frames := [] }).2.depth =
      r.machine.depth := depth_evalLast xs .null _
  cases hrun : evalLast r.setting xs .null { r.machine with frames := [] } with
  | mk o m =>
      rw [hrun] at hfirst hlines hdepth'
      cases o with
      | ok v =>
          have hanswer : first = (.ok (.success v), ⟨r.setting, m⟩) := hfirst
          dsimp only at hlines
          rw [evalLast_frames hys' v .null (hdepth'.trans hdepth)] at hlines
          refine ⟨fun _ _ => ⟨?_, fun hquotes hblind => ?_⟩,
            fun h => absurd (congrArg Prod.fst hanswer) (h v)⟩
          · rw [hanswer, hlines, handleScript_eq_finish (r := ⟨r.setting, m⟩) hplaced]
            exact agree_finish_self ..
          · have hbare := Node.bareAll_movedAll (a.length + 1) ys (allExpressions_of_parseMany hb)
              hquotes
            obtain ⟨hresult, hmachines⟩ := alike_evalLast hblind hbare .null { m with frames := [] }
              { m with frames := [] } rfl
            rw [hanswer, hlines, handleScript_eq_finish (r := ⟨r.setting, m⟩) hb, hresult]
            exact agree_finish _ _ _ _ hmachines
      | failed f =>
          refine ⟨fun v hv => ?_, fun _ => ?_⟩
          · rw [hfirst] at hv
            exact absurd hv (finish_ne_success rfl v)
          · rw [hlines, hfirst]
            exact agree_finish_self ..
      | unfinished =>
          refine ⟨fun v hv => ?_, fun _ => ?_⟩
          · rw [hfirst] at hv
            exact absurd hv (finish_ne_success rfl v)
          · rw [hlines, hfirst]
            exact agree_finish_self ..

open scoped Sample

/-- The second script fails after it has noted something. -/
theorem handleScript_lines_of_notes :
    let host : Reflection := ⟨Builtin.catalogue, [], false, false⟩
    let setting : Setting := ⟨host.host, Primitive.standard ++ Primitive.sample⟩
    let r : Runner := .start setting .empty
    let a := "(mark 'a')"
    let b := "(mark 'b') (fail 'c')"
    let lines := a ++ "\n" ++ b
    let placed := blanks (a.length + 1) ++ b
    let first := r.handleScript a
    (Agree id lines placed (r.handleScript lines).1 (first.2.handleScript placed).1 ∧
        (r.handleScript lines).2 = (first.2.handleScript placed).2) ∧
      Agree id lines b (r.handleScript lines).1 (first.2.handleScript b).1 ∧
        (r.handleScript lines).2.bare = (first.2.handleScript b).2.bare := by
  intro host setting r a b lines placed first
  obtain ⟨xs, ha, -⟩ : ∃ xs, parseMany a = .ok xs ∧ true := exists_parseMany (by decide +kernel)
  obtain ⟨ys, hb, hquotes⟩ : ∃ ys, parseMany b = .ok ys ∧ (!ys.isEmpty && !Node.anyQuotes ys) :=
    exists_parseMany (by decide +kernel)
  rw [Bool.and_eq_true, Bool.not_eq_true', Bool.not_eq_true'] at hquotes
  have hys : ys ≠ [] := fun h => by
    rw [h] at hquotes
    cases hquotes.1
  obtain ⟨v, hv⟩ := exists_of_answerText? (show (answerText? first.1).isSome by decide +kernel)
  have hsucceeds := (handleScript_lines r rfl ha hb hys).1 v hv
  refine ⟨hsucceeds.1, hsucceeds.2 hquotes.2 fun entry hentry => ?_⟩
  rcases List.mem_append.mp hentry with h | h
  · exact Primitive.blind_standard entry h
  · exact Primitive.blind_sample entry h

/-- A script can ask quoted code where it stands, so that not even the text of its value is the same
without what stands in front of it. -/
theorem handleScript_lines_of_offset :
    let host : Reflection := ⟨Builtin.catalogue, [], false, false⟩
    let setting : Setting :=
      ⟨host.host, Primitive.standard ++ Primitive.library Builtin.catalogue⟩
    let r : Runner := .start setting .empty
    let a := "1"
    let b := "(if (eq (.position (.start ~x)) 27) 'here' 'elsewhere')"
    r.machine.depth = 0 ∧ (∃ xs, parseMany a = .ok xs) ∧ (∃ ys, parseMany b = .ok ys ∧ ys ≠ []) ∧
      answerText? (r.handleScript a).1 = some "1" ∧
      ¬ Agree Value.toText (a ++ "\n" ++ b) b (r.handleScript (a ++ "\n" ++ b)).1
        ((r.handleScript a).2.handleScript b).1 := by
  intro host setting r a b
  obtain ⟨xs, ha, -⟩ : ∃ xs, parseMany a = .ok xs ∧ true := exists_parseMany (by decide +kernel)
  obtain ⟨ys, hb, hys⟩ : ∃ ys, parseMany b = .ok ys ∧ !ys.isEmpty :=
    exists_parseMany (by decide +kernel)
  have hlines : answerText? (r.handleScript (a ++ "\n" ++ b)).1 = some "elsewhere" := by
    decide +kernel
  have hsecond : answerText? ((r.handleScript a).2.handleScript b).1 = some "here" := by
    decide +kernel
  refine ⟨rfl, ⟨xs, ha⟩, ⟨ys, hb, ?_⟩, by decide +kernel, fun h => ?_⟩
  · rintro rfl
    cases hys
  · have htext := h.answerText?_eq
    rw [hlines, hsecond] at htext
    exact absurd htext (by decide)

end Runner

end HostedLisp
