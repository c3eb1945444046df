import HostedLisp.Host.Sample
import HostedLisp.Proofs.Evaluation.PrintedData
import HostedLisp.Proofs.Host.Legible
import HostedLisp.Proofs.Script.Concatenation
import HostedLisp.Proofs.Script.Taxonomy
import HostedLisp.Proofs.Source.Trimming

/-!
The running calls in the report of a failure. Main statement: if these are all calls of primitives,
what the report shows of them reads as the invocations that they run, in their order.
-/

namespace HostedLisp

open Text

section Reports

variable [HostClasses]

/-- What a report shows of a call of a primitive is the text of its invocation. -/
theorem Frame.text?_eq {f : Frame} (hf : f.Legible) (h : f.isOfPrimitive = true) (s : Store) :
    f.text? s = .ok f.callSite.text := by
  obtain ⟨name, span, parameters, whole, rfl, hsite⟩ := hf.exists_eq h
  have hparameters := Node.allWellFormed_iff.mp hsite.2
  have hsettled : s.settleAll (parameters.map Value.code) = parameters.map Value.code := by
    rw [Store.settleAll, List.map_map]
    exact List.map_congr_left fun x _ => Store.settle_of_update_eq fun _ => rfl
  have hsources : (parameters.map Value.code).mapM Value.source? =
      .ok (parameters.map Node.text) := by
    rw [List.mapM_map]
    exact mapM_eq_ok_map fun x hx => x.text?_eq (x.isUnwritable_of_wellFormed (hparameters x hx))
  rw [text?, hsettled, hsources]
  change Except.ok _ = Except.ok _
  rw [Node.intercalate_text, Node.trim_itemsText hsite.2, String.ofList_toList,
    ← Node.restText_eq hsite.2]
  rfl

namespace Machine

variable {m : Machine}

theorem stackTrace?_eq (hm : m.Legible) (hcalls : m.frames ≠ [])
    (h : ∀ f ∈ m.frames, f.isOfPrimitive = true) :
    m.stackTrace? =
      .ok ("MiniLISP stacktrace: " ++ Node.itemsText (m.frames.map Frame.callSite)) := by
  have htexts : m.frames.mapM (fun f => f.text? m.store) =
      .ok (m.frames.map fun f => f.callSite.text) :=
    mapM_eq_ok_map fun f hf => Frame.text?_eq (hm.frames f hf) (h f hf) m.store
  have hempty : m.frames.isEmpty = false := by simpa using hcalls
  rw [stackTrace?, hempty, htexts]
  change Except.ok _ = Except.ok _
  rw [← Node.intercalate_text, List.map_map]
  rfl

theorem failureReport?_eq_of_calls {trace : String} (h : m.stackTrace? = .ok trace)
    (hne : trace.isEmpty = false) (source : String) (f : Failure) :
    ∃ before token,
      m.failureReport? source f = .ok (.failure (before ++ "\n" ++ trace) token) := by
  obtain ⟨parts, token, hreport⟩ : ∃ parts token,
      m.failureReport? source f = .ok (.failure (below (causeText f :: parts ++ [trace])) token) :=
    ⟨_, _, by rw [m.failureReport?_eq, h, Except.map, hne]; rfl⟩
  refine ⟨below (causeText f :: parts), token, ?_⟩
  rw [hreport, below, String.intercalate_append_of_ne_nil (List.cons_ne_nil _ _)
    (List.cons_ne_nil _ _), String.intercalate_singleton, below]

end Machine

end Reports

theorem Machine.legible_initial : Machine.initial.Legible where
  store := List.forall_mem_nil _
  scopes := List.forall_mem_singleton.mpr (List.forall_mem_nil _)
  frames := List.forall_mem_nil _

section Binding

variable [HostClasses] {name v : Value} {declared : Option ValueType}

theorem upholds_bindIn (hv : v.Legible) (scope : Nat) :
    Run.Upholds (fun _ => True) (Machine.bindIn scope name declared v) := by
  refine fun m hm => ⟨?_, fun _ _ => trivial⟩
  have hplaced : (m.store.adopt v).1.Legible :=
    (Effect.Upholds.adopt hv m.store hm.store).2 _ rfl
  rw [Machine.bindIn_eq]
  cases hb : Binding.of? name declared (m.store.adopt v).1 with
  | error f => exact ⟨hm.store, hm.scopes, hm.frames⟩
  | ok b =>
      have hvalue : b.value.Legible := by
        rw [Binding.value_of_of? hb]
        exact hplaced
      exact ⟨hm.store, hm.scopes.insert hvalue, hm.frames⟩

theorem upholds_bindAllRoot {values : List (Value × Value)} (h : ∀ b ∈ values, b.2.Legible) :
    Run.Upholds (fun _ => True) (Machine.bindAllRoot values) :=
  (Run.Upholds.mapAll fun b hb => upholds_bindIn (h b hb) _).bind fun _ _ => .pure trivial

end Binding

namespace Runner

/-- Whether a text can spell all code that a runner holds, and neither its host nor its primitives
pass other code on. -/
structure Legible (r : Runner) : Prop where
  setting : r.setting.Legible
  store : r.machine.store.Legible
  scopes : r.machine.scopes.Legible

theorem upholds_evalLast {env : Setting} (henv : env.Legible) {xs : List Node}
    (hxs : ∀ x ∈ xs, x.WellFormed) {last : Value} (hlast : last.Legible) :
    Run.Upholds Value.Legible (evalLast env xs last) := by
  induction xs generalizing last with
  | nil => exact .ofEffect (.settle hlast)
  | cons x rest ih =>
      obtain ⟨hx, hrest⟩ := List.forall_mem_cons.mp hxs
      have hvalue := (env.upholds henv Setting.ample).dispatch x (.inl hx)
      exact (hvalue.evaluation none).bind fun v hv => ih hrest hv

section Scripts

variable [HostClasses] {r : Runner} {source : String} {nodes : List Node}

theorem stackTrace?_traceLine (line : String) (m : Machine) :
    (Run.traceLine line m).2.stackTrace? = m.stackTrace? := by
  unfold Run.traceLine Run.modify
  dsimp only
  split <;> rfl

theorem Legible.machine_handleScript (hr : r.Legible) (hnodes : parseMany source = .ok nodes)
    (hfinite : Node.AllFloatsFinite nodes) : (r.handleScript source).2.machine.Legible := by
  have hxs := Node.allWellFormed_iff.mp (allWellFormed_of_parseMany hnodes hfinite)
  have hnull : Value.null.Legible := Value.legible_of_nodes_eq_nil rfl
  have hrun := upholds_evalLast hr.setting hxs hnull { r.machine with frames := [] }
    ⟨hr.store, hr.scopes, List.forall_mem_nil _⟩
  rw [handleScript_eq_finish hnodes]
  rcases machine_finish r.setting source _ _ with h | ⟨line, h⟩
  · rw [h]
    exact hrun.1
  · rw [h]
    exact (Run.Upholds.traceLine line _ hrun.1).1

theorem Legible.handleScript (hr : r.Legible)
    (hfinite : ∀ nodes, parseMany source = .ok nodes → Node.AllFloatsFinite nodes) :
    (r.handleScript source).2.Legible := by
  cases hnodes : parseMany source with
  | error e =>
      unfold Runner.handleScript
      rw [hnodes]
      exact ⟨hr.setting, hr.store, hr.scopes⟩
  | ok nodes =>
      have hmachine := hr.machine_handleScript hnodes (hfinite nodes hnodes)
      exact ⟨r.setting_handleScript source ▸ hr.setting, hmachine.store, hmachine.scopes⟩

theorem Legible.after (hr : r.Legible) {history : List String}
    (hfinite : ∀ source ∈ history, ∀ nodes, parseMany source = .ok nodes →
      Node.AllFloatsFinite nodes) : (r.after history).Legible := by
  induction history generalizing r with
  | nil => exact hr
  | cons source history ih =>
      obtain ⟨hsource, hhistory⟩ := List.forall_mem_cons.mp hfinite
      exact ih (hr.handleScript hsource) hhistory

theorem exists_handleScript_eq (hnodes : parseMany source = .ok nodes)
    (hfail : ∀ v, (r.handleScript source).1 ≠ .ok (.success v)) {trace : String}
    (htrace : (r.handleScript source).2.machine.stackTrace? = .ok trace)
    (hne : trace.isEmpty = false) :
    ∃ before token,
      (r.handleScript source).1 = .ok (.failure (before ++ "\n" ++ trace) token) := by
  rw [handleScript_eq_finish hnodes] at hfail htrace ⊢
  generalize evalLast r.setting nodes .null { r.machine with frames := [] } = ended at *
  obtain ⟨result, m⟩ := ended
  have hm : m.stackTrace? = .ok trace := by
    rcases machine_finish r.setting source result m with h | ⟨line, h⟩
    · rwa [h] at htrace
    · rwa [h, stackTrace?_traceLine] at htrace
  unfold finish at hfail ⊢
  cases hsettled : settled result with
  | ok v =>
      rw [hsettled] at hfail
      exact absurd rfl (hfail v)
  | error f =>
      obtain ⟨before, token, hreport⟩ := Machine.failureReport?_eq_of_calls hm hne source f
      exact ⟨before, token, by dsimp only; rw [hreport]⟩

/-- If a text can spell all code that a runner holds, and neither its host nor its primitives pass
other code on, then a script whose binary numbers are finite is answered as follows if it fails
while calls are running, all of them calls of primitives. The report ends with a line on these
calls, and what stands in the line behind its label reads as one invocation for each call,
outermost first, which is the same as the one that the call runs. -/
theorem handleScript_trace_reads (hr : r.Legible) (hnodes : parseMany source = .ok nodes)
    (hfinite : Node.AllFloatsFinite nodes)
    (hfail : ∀ v, (r.handleScript source).1 ≠ .ok (.success v))
    (hcalls : (r.handleScript source).2.machine.frames ≠ [])
    (hprimitives : ∀ f ∈ (r.handleScript source).2.machine.frames, f.isOfPrimitive = true) :
    ∃ before trace token xs,
      (r.handleScript source).1 =
          .ok (.failure (before ++ "\n" ++ ("MiniLISP stacktrace: " ++ trace)) token) ∧
        (r.handleScript source).2.machine.stackTrace? = .ok ("MiniLISP stacktrace: " ++ trace) ∧
        parseMany trace = .ok xs ∧
        Node.sameAll ((r.handleScript source).2.machine.frames.map Frame.callSite) xs = true := by
  have hmachine := hr.machine_handleScript hnodes hfinite
  have htrace := Machine.stackTrace?_eq hmachine hcalls hprimitives
  have hsites : Node.AllWellFormed
      ((r.handleScript source).2.machine.frames.map Frame.callSite) := by
    refine Node.allWellFormed_iff.mpr fun x hx => ?_
    obtain ⟨f, hf, rfl⟩ := List.mem_map.mp hx
    obtain ⟨_, _, _, _, -, hsite⟩ := (hmachine.frames f hf).exists_eq (hprimitives f hf)
    exact hsite
  obtain ⟨xs, hparse, hsame⟩ := parseMany_itemsText hsites
  obtain ⟨before, token, hreport⟩ := exists_handleScript_eq hnodes hfail htrace (by simp)
  exact ⟨before, _, token, xs, hreport, htrace, hparse, hsame⟩

end Scripts

open scoped Sample

/-- A quote in scope that holds a string with a closing parenthesis in it. -/
theorem handleScript_trace_reads_quote :
    let host : Reflection := ⟨Builtin.catalogue, [], false, false⟩
    let setting : Setting :=
      ⟨host.host, Primitive.standard ++ Primitive.library Builtin.catalogue⟩
    let quote : Node := .quote (.invocation (.identifier "if" .absent)
      [.literal (.integer 1) .absent, .literal (.string "a) b") .absent,
        .literal .null .absent] .absent) .absent
    let r : Runner :=
      ⟨setting, (Machine.bindAllRoot [(.str "q", .code quote)] Machine.initial).2⟩
    let source := "(str (eval q))"
    let trace := "(str (eval q)) (eval q) (if 1 'a) b' null)"
    ∃ before token xs,
      (r.handleScript source).1 =
          .ok (.failure (before ++ "\n" ++ ("MiniLISP stacktrace: " ++ trace)) token) ∧
        parseMany trace = .ok xs ∧
        Node.sameAll ((r.handleScript source).2.machine.frames.map Frame.callSite) xs = true := by
  intro host setting quote r source trace
  have hif : IsName "if" := ⟨'i', ['f'], rfl, rfl, List.all_eq_true.mp rfl, by decide⟩
  have hquote : quote.WellFormed := ⟨hif, ⟨by decide, by decide⟩, trivial, trivial, trivial⟩
  have hsetting : setting.Legible :=
    ⟨Reflection.legible_host Builtin.legible_catalogue (List.forall_mem_nil _),
      List.forall_mem_append.mpr ⟨Primitive.legible_standard,
        Primitive.legible_library Builtin.legible_catalogue⟩⟩
  have hmachine : r.machine.Legible :=
    (upholds_bindAllRoot (List.forall_mem_singleton.mpr (Value.legible_code_iff.mpr (.inl hquote)))
      Machine.initial Machine.legible_initial).1
  have hr : r.Legible := ⟨hsetting, hmachine.store, hmachine.scopes⟩
  obtain ⟨nodes, hnodes, hfinite⟩ : ∃ nodes, parseMany source = .ok nodes ∧
      decide (Node.AllFloatsFinite nodes) = true := exists_parseMany (by decide +kernel)
  have hfail : (reported? (r.handleScript source).1).isSome = true := by decide +kernel
  have hcalls : (r.handleScript source).2.machine.frames.isEmpty = false := by decide +kernel
  have hprimitives : (r.handleScript source).2.machine.frames.all Frame.isOfPrimitive = true := by
    decide +kernel
  have htrace : (r.handleScript source).2.machine.stackTrace?.toOption =
      some ("MiniLISP stacktrace: " ++ trace) := by decide +kernel
  obtain ⟨before, found, token, xs, hreport, hfound, hparse, hsame⟩ :=
    handleScript_trace_reads hr hnodes (of_decide_eq_true hfinite)
      (fun v hv => by rw [hv] at hfail; cases hfail)
      (fun h => by rw [h] at hcalls; cases hcalls) (List.all_eq_true.mp hprimitives)
  rw [hfound] at htrace
  obtain rfl : found = trace := by
    have happend := congrArg String.toList (Option.some.inj htrace)
    rw [String.toList_append, String.toList_append] at happend
    exact String.toList_injective (List.append_cancel_left happend)
  exact ⟨before, token, xs, hreport, hparse, hsame⟩

/-- A type hands out code with an infinite number in it, which the line spells like a name. -/
theorem handleScript_trace_misreads_infinity :
    let infinite : Node := .quote (.quote (.invocation (.identifier "if" .absent)
      [.literal (.double (.infinite false)) .absent, .literal (.integer 2) .absent,
        .literal (.integer 3) .absent] .absent) .absent) .absent
    let host : Reflection := ⟨Builtin.catalogue, [("T", .code infinite)], false, false⟩
    let setting : Setting :=
      ⟨host.host, Primitive.standard ++ Primitive.library Builtin.catalogue⟩
    let r : Runner := .start setting .empty
    let source := "(eval (T/inner))"
    let calls := (r.handleScript source).2.machine.frames
    let trace := "(eval (T/inner)) (if inf 2 3)"
    r.machine.Legible ∧
      (∃ nodes, parseMany source = .ok nodes ∧ Node.AllFloatsFinite nodes) ∧
      calls ≠ [] ∧ (∀ f ∈ calls, f.isOfPrimitive = true) ∧
      (r.handleScript source).1 = .ok (.failure
        ("EvalTypeError: `if` condition parameter must be a boolean or reference type, got float" ++
          "\n" ++ ("MiniLISP stacktrace: " ++ trace)) none) ∧
      ∀ xs, parseMany trace = .ok xs → Node.sameAll (calls.map Frame.callSite) xs = false := by
  intro infinite host setting r source calls trace
  obtain ⟨nodes, hnodes, hfinite⟩ : ∃ nodes, parseMany source = .ok nodes ∧
      decide (Node.AllFloatsFinite nodes) = true := exists_parseMany (by decide +kernel)
  have hcalls : calls.isEmpty = false := by decide +kernel
  have hprimitives : calls.all Frame.isOfPrimitive = true := by decide +kernel
  have hreport : reported? (r.handleScript source).1 = some
      ("EvalTypeError: `if` condition parameter must be a boolean or reference type, got float" ++
        "\n" ++ ("MiniLISP stacktrace: " ++ trace), none) := by decide +kernel
  have hreads : (parseMany trace).toOption.all
      (fun xs => !Node.sameAll (calls.map Frame.callSite) xs) = true := by decide +kernel
  refine ⟨Machine.legible_initial, ⟨nodes, hnodes, of_decide_eq_true hfinite⟩, fun h => ?_,
    List.all_eq_true.mp hprimitives, ?_, fun xs hxs => ?_⟩
  · rw [h] at hcalls
    cases hcalls
  · exact eq_of_reported? (by rw [hreport]; rfl) hreport
  · rw [hxs] at hreads
    exact (Bool.not_eq_true' _).mp hreads

end Runner

end HostedLisp
