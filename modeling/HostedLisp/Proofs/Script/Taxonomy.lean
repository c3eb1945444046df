import HostedLisp.Host.Sample
import HostedLisp.Proofs.Evaluation.Taxonomy
import HostedLisp.Proofs.Script.Independence

/-!
Failures of scripts. Main statement: over plain data, a script that uses neither the host nor
templates always has an answer, and a failure is reported as one of reading or of evaluating the
script, never as an internal one.
-/

namespace HostedLisp

namespace Failure

/-- The classes of the failures of evaluation. -/
def evaluationKinds : List String :=
  ["EvalError", "UndefinedIdentifier", "UndefinedFunction", "ArityError", "EvalTypeError",
    "HostResolutionError"]

theorem kind_mem_evaluationKinds {f : Failure} (h : f.isEvaluation = true) :
    f.kind ∈ evaluationKinds := by
  cases f with
  | syntaxError => cases h
  | registration => cases h
  | foreign => cases h
  | _ => simp [kind, evaluationKinds]

end Failure

theorem causeText_of_isEvaluation {f : Failure} (h : f.isEvaluation = true) :
    ∃ rest, causeText f = f.kind ++ ": " ++ rest := by
  cases f with
  | syntaxError => cases h
  | registration => cases h
  | foreign => cases h
  | undefinedIdentifier name => exact ⟨name, rfl⟩
  | undefinedFunction name => exact ⟨name, rfl⟩
  | _ => exact ⟨_, rfl⟩

theorem below_cons (part : String) (parts : List String) :
    ∃ rest, below (part :: parts) = part ++ rest := by
  cases parts with
  | nil => exact ⟨"", by simp [below]⟩
  | cons next parts => exact ⟨_, by rw [below, String.intercalate_cons_cons, String.append_assoc]⟩

theorem exists_mapM_eq_ok {α β : Type} {f : α → Except Failure β} {xs : List α}
    (h : ∀ x ∈ xs, ∃ y, f x = .ok y) : ∃ ys, xs.mapM f = .ok ys := by
  induction xs with
  | nil => exact ⟨[], rfl⟩
  | cons x xs ih =>
      obtain ⟨y, hy⟩ := h x List.mem_cons_self
      obtain ⟨ys, hys⟩ := ih fun z hz => h z (List.mem_cons_of_mem _ hz)
      exact ⟨y :: ys, by rw [List.mapM_cons, hy, hys]; rfl⟩

namespace Machine

variable {s : Store} {m : Machine}

theorem Orderly.exists_text? [HostClasses] (h : m.Orderly s) {f : Frame} (hf : f ∈ m.frames) :
    ∃ text, f.text? m.store = .ok text := by
  obtain ⟨sources, hsources⟩ : ∃ sources,
      (m.store.settleAll f.arguments).mapM Value.source? = .ok sources := by
    refine exists_mapM_eq_ok fun v hv => ?_
    obtain ⟨w, hw, rfl⟩ := List.mem_map.mp hv
    obtain ⟨x, rfl, hx⟩ := h.frames f hf w hw
    rw [Store.settle_of_update_eq fun _ => rfl]
    exact ⟨_, x.text?_eq (x.isUnwritable_of_isExpression hx)⟩
  rw [Frame.text?, hsources]
  exact ⟨_, rfl⟩

theorem Orderly.exists_stackTrace? [HostClasses] (h : m.Orderly s) :
    ∃ text, m.stackTrace? = .ok text := by
  unfold stackTrace?
  split
  · exact ⟨_, rfl⟩
  · obtain ⟨texts, htexts⟩ := exists_mapM_eq_ok fun f hf => h.exists_text? (f := f) hf
    rw [htexts]
    exact ⟨_, rfl⟩

/-- The report of a failed evaluation can be written and begins with the class of the failure. -/
theorem Orderly.exists_failureReport? [HostClasses] (h : m.Orderly s) (source : String)
    {f : Failure} (hf : f.isEvaluation = true) :
    ∃ rest token, m.failureReport? source f = .ok (.failure (f.kind ++ ": " ++ rest) token) := by
  obtain ⟨trace, htrace⟩ := h.exists_stackTrace?
  obtain ⟨parts, token, hreport⟩ : ∃ parts token,
      m.failureReport? source f = .ok (.failure (below (causeText f :: parts)) token) :=
    ⟨_, _, by rw [failureReport?, htrace]; rfl⟩
  obtain ⟨cause, hcause⟩ := causeText_of_isEvaluation hf
  obtain ⟨rest, hrest⟩ := below_cons (causeText f) parts
  exact ⟨cause ++ rest, token, by rw [hreport, hrest, hcause, String.append_assoc]⟩

/-- Whether nothing but plain data is bound, and all identities that changes are about were given
out. -/
structure BindsPlainData (m : Machine) : Prop where
  issued : m.store.Issued
  plain : ∀ sc ∈ m.scopes.all, ∀ b ∈ sc.bindings, (m.store.settle b.value).IsPlain

theorem BindsPlainData.quoteless (h : m.BindsPlainData) : m.scopes.Quoteless := by
  intro sc hsc b hb inner span hvalue
  have hplain := h.plain sc hsc b hb
  rw [hvalue, Store.settle_of_update_eq fun _ => rfl] at hplain
  exact hplain

theorem BindsPlainData.orderly (h : m.BindsPlainData) (hframes : m.frames = []) :
    m.Orderly m.store where
  changes_eq := rfl
  issued := h.issued
  bindings sc hsc b hb := Value.BuiltFrom.mono (fun _ => False.elim) _ (h.plain sc hsc b hb)
  frames f hf := by
    rw [hframes] at hf
    cases hf

theorem bindsPlainData_initial : Machine.initial.BindsPlainData where
  issued := nofun
  plain sc hsc := by
    rw [List.mem_singleton.mp hsc]
    nofun

variable [HostClasses]

theorem BindsPlainData.bindRoot (h : m.BindsPlainData) (name : Value) {v : Value}
    (hv : (m.store.settle v).IsPlain) :
    (bindRoot name none v m).2.BindsPlainData ∧
      (bindRoot name none v m).2.store.changes = m.store.changes := by
  have hle : m.store.nextIdentity ≤ (v.place m.store.nextIdentity).2 := Value.le_place v _
  have hissued : (m.store.adopt v).2.Issued :=
    fun c hc i hi => Nat.lt_of_lt_of_le (h.issued c hc i hi) hle
  rw [bindRoot_eq]
  cases hb : Binding.of? name none (m.store.adopt v).1 with
  | error f => exact ⟨⟨hissued, h.plain⟩, rfl⟩
  | ok b =>
      refine ⟨⟨hissued, fun sc hsc b' hb' => ?_⟩, rfl⟩
      rcases Scopes.mem_insert hsc hb' with rfl | ⟨sc', hsc', hold⟩
      · rw [Binding.value_of_of? hb]
        exact Store.builtFrom_settle_place h.issued v (Nat.le_refl _) hv
      · exact h.plain sc' hsc' b' hold

theorem BindsPlainData.bindAllRoot (h : m.BindsPlainData) {globals : List (Value × Value)}
    (hglobals : ∀ b ∈ globals, (m.store.settle b.2).IsPlain) :
    (bindAllRoot globals m).2.BindsPlainData := by
  have hall := mapAll_invariant
    (P := fun m' => m'.BindsPlainData ∧ m'.store.changes = m.store.changes)
    (f := fun b : Value × Value => Machine.bindRoot b.1 none b.2)
    (fun b (hb : b ∈ globals) m' ⟨hplain, hchanges⟩ => by
      have hv : m'.store.settle b.2 = m.store.settle b.2 := by
        rw [Store.settle, Store.settle, hchanges]
      obtain ⟨hplain', hchanges'⟩ := hplain.bindRoot b.1 (v := b.2) (hv ▸ hglobals b hb)
      exact ⟨hplain', hchanges'.trans hchanges⟩)
    ⟨h, rfl⟩
  change (Run.bind _ _ m).2.BindsPlainData
  rw [Run.bind]
  cases hmap : Run.mapAll (fun b : Value × Value => Machine.bindRoot b.1 none b.2) globals m with
  | mk o m' =>
      rw [hmap] at hall
      cases o <;> exact hall.1

end Machine

namespace Runner

/-- Evaluates expressions in order, each with some fuel, for the value of the last one. -/
def evalLastIn (env : Setting) (fuel : Nat) : List Node → Value → Run Value
  | [], last => Run.ofEffect (Effect.settle last)
  | x :: rest, _ => do evalLastIn env fuel rest (← Run.evaluation none (env.dispatch fuel x))

/-- Runs a script whose expressions are evaluated with some fuel. -/
def handleScriptIn [HostClasses] (fuel : Nat) (r : Runner) (source : String) :
    Except Failure ScriptResult × Runner :=
  match parseMany source with
  | .error e => (.ok (syntaxReport source e), { r with machine := { r.machine with frames := [] } })
  | .ok nodes =>
      let (result, m) := evalLastIn r.setting fuel nodes .null { r.machine with frames := [] }
      finish r.setting source result m

theorem evalLastIn_ample (env : Setting) (xs : List Node) (last : Value) :
    evalLastIn env Setting.ample xs last = evalLast env xs last := by
  induction xs generalizing last with
  | nil => rfl
  | cons x rest ih => exact congrArg (env.eval x none >>= ·) (funext ih)

theorem handleScriptIn_ample [HostClasses] (r : Runner) (source : String) :
    r.handleScriptIn Setting.ample source = r.handleScript source := by
  cases hparse : parseMany source with
  | error e => rw [handleScriptIn, handleScript, hparse]
  | ok nodes =>
      rw [handleScriptIn, hparse, handleScript_eq_finish hparse]
      dsimp only
      rw [evalLastIn_ample]

/-- The runner without the host and without templates. -/
def alone (r : Runner) : Runner :=
  { r with setting := ⟨Host.absent, r.setting.primitives.filter fun entry => entry.1 ≠ "render"⟩ }

/-- Whether a script is answered as without the host and without templates, as it is if it calls no
member of a value, finds no type by its path and renders nothing. -/
def AnswersAlone [HostClasses] (fuel : Nat) (r : Runner) (source : String) : Prop :=
  (r.handleScriptIn fuel source).1 = (r.alone.handleScriptIn fuel source).1

section Alone

variable [HostClasses] {env : Setting} {s : Store} {fuel : Nat}

theorem reports_evalLastIn (fuel : Nat) (henv : env.WritesOnly) (hhost : env.host = Host.absent)
    {xs : List Node} (hxs : ∀ x ∈ xs, x.IsExpression) {last : Value} (hlast : s.Sound last) :
    Reports s s.Settled (evalLastIn env fuel xs last) := by
  induction xs generalizing last with
  | nil => exact .settle hlast
  | cons x rest ih =>
      have hx := (Setting.reporting (s := s) henv hhost fuel).dispatch x (hxs x List.mem_cons_self)
      refine (hx.evaluation none).bind fun v hv => ?_
      exact ih (fun y hy => hxs y (List.mem_cons_of_mem _ hy)) hv

theorem halts_evalLastIn (henv : env.WritesOnly) (hhost : env.host = Host.absent)
    {xs : List Node} (hfuel : Node.weightAll xs ≤ fuel) (last : Value) :
    Halts (fun _ => True) (evalLastIn env fuel xs last) := by
  have hmembers : env.withoutMembers = env := by
    cases env
    cases hhost
    rfl
  induction xs generalizing last with
  | nil => exact .ofEffect fun _ _ _ => trivial
  | cons x rest ih =>
      rw [Node.weightAll] at hfuel
      have hx := Setting.haltsBelow henv (x.weight + 1) x (Nat.lt_succ_self _) fuel (by omega)
      rw [hmembers] at hx
      exact (hx.evaluation none).bind fun v _ => ih (by omega) v

theorem exists_finish_evalLastIn (henv : env.WritesOnly) (hhost : env.host = Host.absent)
    {xs : List Node} (hxs : ∀ x ∈ xs, x.IsExpression) (hfuel : Node.weightAll xs ≤ fuel)
    {m : Machine} (hm : m.BindsPlainData) (hframes : m.frames = []) (source : String) :
    ∃ result, (finish env source (evalLastIn env fuel xs .null m).1
        (evalLastIn env fuel xs .null m).2).1 = .ok result ∧
      ∀ message token, result = .failure message token →
        ∃ kind ∈ Failure.evaluationKinds, ∃ rest, message = kind ++ ": " ++ rest := by
  obtain ⟨hfinished, -, -⟩ := halts_evalLastIn henv hhost hfuel .null m hm.quoteless
  have hnull : m.store.Sound .null := Store.sound_ofLiteral (l := .null) rfl
  obtain ⟨horderly, -, hfailure⟩ :=
    reports_evalLastIn fuel henv hhost hxs hnull m (hm.orderly hframes)
  cases hrun : evalLastIn env fuel xs .null m with
  | mk o m' =>
      rw [hrun] at hfinished horderly hfailure
      cases o with
      | ok v => exact ⟨.success v, rfl, fun _ _ hresult => nomatch hresult⟩
      | unfinished => exact absurd rfl hfinished
      | failed f =>
          have hf := hfailure f rfl
          obtain ⟨rest, token, hreport⟩ := horderly.exists_failureReport? source hf
          refine ⟨.failure (f.kind ++ ": " ++ rest) token, ?_, ?_⟩
          · simp only [finish, settled, hreport]
          · intro message token' hresult
            cases hresult
            exact ⟨f.kind, Failure.kind_mem_evaluationKinds hf, rest, rfl⟩

end Alone

theorem writesOnly_alone [HostClasses] {r : Runner}
    (h : ∀ entry ∈ r.setting.primitives,
      entry ∈ Primitive.standard ∨ ∃ c, entry ∈ Primitive.library c) :
    r.alone.setting.WritesOnly := by
  intro entry hentry
  obtain ⟨hmem, hname⟩ := List.mem_filter.mp hentry
  exact (h entry hmem).imp_right fun ⟨c, hc⟩ => ⟨c, hc, of_decide_eq_true hname⟩

theorem exists_syntaxReport_eq (source : String) (e : SyntaxError) :
    ∃ rest token, syntaxReport source e = .failure ("ParseError" ++ ": " ++ rest) token := by
  let t := LocatedToken.of source e.start
  obtain ⟨rest, hrest⟩ :=
    below_cons ("ParseError: " ++ e.message ++ " " ++ t.placeText) (t.excerptParts source)
  refine ⟨e.message ++ " " ++ t.placeText ++ rest, some t, ?_⟩
  rw [syntaxReport, hrest]
  simp only [String.append_assoc]
  rfl

/-- Over plain data, and with the standard primitives and those of the library, a script that uses
neither the host nor templates always has an answer, if the fuel is what its expressions weigh or
more. If the answer is a failure, its message begins with the class of a failure of reading for a
text that cannot be read, and with that of a failure of evaluation for one that can. -/
theorem handleScript_failure_kinds [HostClasses] (r : Runner) (source : String) (fuel : Nat)
    (hfuel : ∀ nodes, parseMany source = .ok nodes → Node.weightAll nodes ≤ fuel)
    (hprimitives : ∀ entry ∈ r.setting.primitives,
      entry ∈ Primitive.standard ∨ ∃ c, entry ∈ Primitive.library c)
    (hglobals : r.machine.BindsPlainData) (halone : r.AnswersAlone fuel source) :
    ∃ result, (r.handleScriptIn fuel source).1 = .ok result ∧
      ∀ message token, result = .failure message token →
        ∃ kind rest, message = kind ++ ": " ++ rest ∧
          match parseMany source with
          | .error _ => kind = "ParseError"
          | .ok _ => kind ∈ Failure.evaluationKinds := by
  rw [halone]
  cases hparse : parseMany source with
  | error e =>
      obtain ⟨rest, token, hreport⟩ := exists_syntaxReport_eq source e
      refine ⟨syntaxReport source e, by rw [handleScriptIn, hparse], ?_⟩
      intro message token' hresult
      rw [hreport] at hresult
      cases hresult
      exact ⟨"ParseError", rest, rfl, rfl⟩
  | ok nodes =>
      have hxs := Node.allExpressions_iff.mp (allExpressions_of_parseMany hparse)
      obtain ⟨result, hresult, hkind⟩ := exists_finish_evalLastIn (writesOnly_alone hprimitives) rfl
        hxs (hfuel nodes hparse) (m := { r.alone.machine with frames := [] })
        ⟨hglobals.issued, hglobals.plain⟩ rfl source
      refine ⟨result, by rw [handleScriptIn, hparse]; exact hresult, ?_⟩
      intro message token hmessage
      obtain ⟨kind, hmem, rest, hrest⟩ := hkind message token hmessage
      exact ⟨kind, rest, hrest, hmem⟩

/-- The message and the token of an answer that reports a failure. -/
def reported? : Except Failure ScriptResult → Option (String × Option LocatedToken)
  | .ok (.failure message token) => some (message, token)
  | _ => none

theorem eq_of_reported? {a b : Except Failure ScriptResult} (ha : (reported? a).isSome)
    (h : reported? a = reported? b) : a = b := by
  unfold reported? at ha h
  grind

open scoped Sample

/-- Code that is put together from a name and a quote asks for a format that is not known. -/
theorem handleScript_failure_kinds_of_unknown_format :
    let host : Reflection := ⟨Builtin.catalogue, [], false, false⟩
    let setting : Setting :=
      ⟨host.host, Primitive.standard ++ Primitive.library Builtin.catalogue⟩
    let globals := [(Value.str "xs", Value.listOf [.int 5, .decimal (.nan false)])]
    let r : Runner := ⟨setting, (Machine.bindAllRoot globals Machine.initial).2⟩
    let source := "(eval ~(concat (str xs) (serialize 'xml' [~(f) xs])))"
    ∃ result, (r.handleScriptIn 60 source).1 = .ok result ∧
      ∀ message token, result = .failure message token →
        ∃ kind rest, message = kind ++ ": " ++ rest ∧
          match parseMany source with
          | .error _ => kind = "ParseError"
          | .ok _ => kind ∈ Failure.evaluationKinds := by
  intro host setting globals r source
  have hweight : (parseMany source).toOption.all (fun nodes => Node.weightAll nodes ≤ 60) := by
    decide +kernel
  have hfuel : ∀ nodes, parseMany source = .ok nodes → Node.weightAll nodes ≤ 60 := by
    intro nodes hparse
    rw [hparse] at hweight
    exact of_decide_eq_true hweight
  have hprimitives : ∀ entry ∈ setting.primitives,
      entry ∈ Primitive.standard ∨ ∃ c, entry ∈ Primitive.library c :=
    fun _ hentry => (List.mem_append.mp hentry).imp_right fun h => ⟨Builtin.catalogue, h⟩
  have hglobals : r.machine.BindsPlainData := by
    refine Machine.bindsPlainData_initial.bindAllRoot fun b hb => ?_
    rw [List.mem_singleton.mp hb]
    exact ⟨Number.exceedsDigitLimit_of_range (by decide) (by decide), trivial, trivial⟩
  exact handleScript_failure_kinds r source 60 hfuel hprimitives hglobals
    (eq_of_reported? (by decide +kernel) (by decide +kernel))

end Runner

end HostedLisp
