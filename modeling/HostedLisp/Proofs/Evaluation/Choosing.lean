import HostedLisp.Host.Sample
import HostedLisp.Proofs.Evaluation.Forcing

/-!
Choosing between two expressions. Main statement: of an invocation of `if`, the branch that is not
taken makes no difference, whatever stands in it, and neither branch does if the condition fails or
is a number. What the invocation does is first what its condition does and then what the branch does
that the value of the condition selects.
-/

namespace HostedLisp

/-- An invocation of `if`, with the places of the name and of the whole. -/
def Node.conditional (place span : Span) (test whenTrue whenFalse : Node) : Node :=
  .invocation (.identifier "if" place) [test, whenTrue, whenFalse] span

/-- Whether a value is a number; truth values are none. -/
def Value.IsNumber : Value → Prop
  | int _ => True
  | double _ => True
  | float _ => True
  | decimal _ => True
  | _ => False

/-- Whether two states differ in nothing but the frames, the node at hand and the trace. -/
structure Machine.Alike (m m' : Machine) : Prop where
  store : m'.store = m.store
  scopes : m'.scopes = m.scopes
  scope : m'.scope = m.scope
  depth : m'.depth = m.depth
  activeFrames : m'.activeFrames = m.activeFrames
  tracing : m'.tracing = m.tracing

theorem Machine.Alike.trans {m m' m'' : Machine} (h : m.Alike m') (h' : m'.Alike m'') :
    m.Alike m'' :=
  ⟨h'.store.trans h.store, h'.scopes.trans h.scopes, h'.scope.trans h.scope,
    h'.depth.trans h.depth, h'.activeFrames.trans h.activeFrames, h'.tracing.trans h.tracing⟩

namespace Primitive

theorem truth?_eq_some_false_iff {v : Value} :
    truth? v = some false ↔ v = .null ∨ v = .bool false := by
  cases v <;> simp [truth?]

theorem truth?_eq_some_true {v : Value} (hnull : v ≠ .null) (hfalse : v ≠ .bool false)
    (hnumber : ¬ v.IsNumber) : truth? v = some true := by
  cases v with
  | null => exact absurd rfl hnull
  | bool b =>
      cases b with
      | false => exact absurd rfl hfalse
      | true => rfl
  | int | double | float | decimal => exact absurd trivial hnumber
  | _ => rfl

theorem truth?_eq_none {v : Value} (h : v.IsNumber) : truth? v = none := by
  cases v with
  | int | double | float | decimal => rfl
  | _ => exact h.elim

end Primitive

namespace Store

theorem settle_invariant {α : Type} {f : Value → α} (h : ∀ c v, f (v.update c) = f v) (s : Store)
    (v : Value) : f (s.settle v) = f v := by
  unfold settle
  induction s.changes generalizing v with
  | nil => rfl
  | cons c changes ih => rw [List.foldl_cons, ih, h]

theorem type_settle (s : Store) (v : Value) : (s.settle v).type = v.type := by
  refine settle_invariant (fun c v => ?_) s v
  cases v with
  | list id items =>
      rw [Value.update]
      cases c.itemsOf? id <;> rfl
  | object id className attributes =>
      rw [Value.update]
      cases c.attributeOf? (.object id) <;> rfl
  | _ => rfl

theorem truth?_settle (s : Store) (v : Value) :
    Primitive.truth? (s.settle v) = Primitive.truth? v := by
  refine settle_invariant (fun c v => ?_) s v
  cases v with
  | list id items =>
      rw [Value.update]
      cases c.itemsOf? id <;> rfl
  | object id className attributes =>
      rw [Value.update]
      cases c.attributeOf? (.object id) <;> rfl
  | _ => rfl

end Store

namespace Setting

open Run

/-- What follows the condition of an invocation of `if` with some value. -/
def branch (env : Setting) (fuel : Nat) (whenTrue whenFalse : Node) (v : Value) : Run Value :=
  match Primitive.truth? v with
  | some true => (env.dispatch fuel whenTrue).handedOn
  | some false => (env.dispatch fuel whenFalse).handedOn
  | none => Run.fail (.conditionKind v.type)

/-- What an invocation of `if` does, apart from what is kept for reports. -/
def choice (env : Setting) (fuel : Nat) (test whenTrue whenFalse : Node) : Run Value := do
  let v ← env.dispatch (fuel + 2) test
  let v ← Run.ofEffect (Effect.settle v)
  env.branch fuel whenTrue whenFalse v

section Step

variable {env : Setting} (hchoose : env.primitives.find? "if" = some Primitive.choose)
  (hprimitives : ∀ entry ∈ env.primitives, Primitive.Heedless entry.2)
include hchoose hprimitives

theorem agree_dispatch_conditional {fuel : Nat} (hfuel : 1 ≤ fuel) (place span : Span)
    (t a b : Node) :
    Agree (env.dispatch (fuel + 5) (.conditional place span t a b)) (env.choice fuel t a b) := by
  let e : Invocation := ⟨.identifier "if" place, [t, a, b], span⟩
  have hcall : Agree (env.perform (fuel + 3) (Primitive.choose e)) (env.choice fuel t a b) := by
    rw [Primitive.choose, perform]
    have ht := (undisturbed hprimitives (fuel + 2)).dispatch t
    refine (Agree.evaluation_here ht (env.balanced_dispatch _ t)).bind fun v => ?_
    refine (Agree.ofEffect _).bind fun v => ?_
    rw [perform]
    refine Agree.bind_of_pure (Agree.traceLine_pure _) ?_
    unfold branch
    cases Primitive.truth? v with
    | none => exact .fail _
    | some taken =>
        cases taken with
        | true => exact agree_perform_eval_done hprimitives hfuel a
        | false => exact agree_perform_eval_done hprimitives hfuel b
  rw [Node.conditional, dispatch]
  refine Agree.bind_of_pure (Agree.visit_pure _) ?_
  rw [invoke]
  dsimp only
  rw [hchoose]
  exact Agree.bind_of_pure (Agree.traceLine_pure _) (Agree.framed hcall _)

end Step

section Choice

variable {env : Setting} {fuel : Nat} {t a b a' b' : Node} {scope : Option Nat} {m n : Machine}
  {v : Value}

theorem branch_settle (s : Store) (v : Value) :
    env.branch fuel a b (s.settle v) = env.branch fuel a b v := by
  rw [branch, branch, s.truth?_settle, s.type_settle]

theorem branch_of_isNumber (h : v.IsNumber) :
    env.branch fuel a b v = Run.fail (.conditionKind v.type) := by
  rw [branch, Primitive.truth?_eq_none h]

theorem branch_congr {taken : Bool} (h : Primitive.truth? v = some taken)
    (ha : taken = true → a' = a) (hb : taken = false → b' = b) :
    env.branch fuel a' b' v = env.branch fuel a b v := by
  rw [branch, branch, h]
  cases taken with
  | true => rw [ha rfl]
  | false => rw [hb rfl]

theorem choice_eq (env : Setting) (fuel : Nat) (t a b : Node) (m : Machine) :
    env.choice fuel t a b m =
      match env.dispatch (fuel + 2) t m with
      | (.ok v, n) => env.branch fuel a b v n
      | (o, n) => (o, n) := by
  change Run.bind (env.dispatch (fuel + 2) t) _ m = _
  unfold Run.bind
  cases env.dispatch (fuel + 2) t m with
  | mk o n =>
      cases o with
      | failed f => rfl
      | unfinished => rfl
      | ok v => exact congrFun (branch_settle n.store v) n

theorem evaluation_choice_congr {taken : Bool} (ha : taken = true → a' = a)
    (hb : taken = false → b' = b)
    (ht : Run.evaluation scope (env.dispatch (fuel + 2) t) m = (.ok v, n))
    (htaken : Primitive.truth? v = some taken) :
    Run.evaluation scope (env.choice fuel t a' b') m =
      Run.evaluation scope (env.choice fuel t a b) m := by
  rw [evaluation_eq] at ht ⊢
  rw [evaluation_eq, choice_eq, choice_eq]
  cases hrun : env.dispatch (fuel + 2) t (m.evaluating scope) with
  | mk o k =>
      rw [hrun] at ht
      obtain rfl : o = .ok v := (Prod.mk.inj ht).1
      dsimp only
      rw [branch_congr htaken ha hb]

theorem evaluation_choice_of_isNumber
    (ht : Run.evaluation scope (env.dispatch (fuel + 2) t) m = (.ok v, n)) (hv : v.IsNumber) :
    Run.evaluation scope (env.choice fuel t a b) m = (.failed (.conditionKind v.type), n) := by
  rw [evaluation_eq] at ht ⊢
  rw [choice_eq]
  cases hrun : env.dispatch (fuel + 2) t (m.evaluating scope) with
  | mk o k =>
      rw [hrun] at ht
      obtain ⟨rfl, rfl⟩ := Prod.mk.inj ht
      dsimp only
      rw [branch_of_isNumber hv]
      rfl

theorem evaluation_choice_of_failed {f : Failure}
    (ht : Run.evaluation scope (env.dispatch (fuel + 2) t) m = (.failed f, n)) :
    Run.evaluation scope (env.choice fuel t a b) m = (.failed f, n) := by
  rw [evaluation_eq] at ht ⊢
  rw [choice_eq]
  cases hrun : env.dispatch (fuel + 2) t (m.evaluating scope) with
  | mk o k =>
      rw [hrun] at ht
      obtain ⟨rfl, rfl⟩ := Prod.mk.inj ht
      rfl

end Choice

/-- Whether the evaluations of two nodes come to the same ends: if one of them ends, so does the
other one, with the same value or failure and, apart from what is kept for reports, in the same
state. -/
def EndAlike (env : Setting) (x y : Node) (scope : Option Nat) (m : Machine) : Prop :=
  (∀ r n, env.Ends x scope m r n → ∃ n', env.Ends y scope m r n' ∧ n.Alike n') ∧
    ∀ r n, env.Ends y scope m r n → ∃ n', env.Ends x scope m r n' ∧ n.Alike n'

section Ends

variable {env : Setting} {x y z t a b a' b' : Node} {scope : Option Nat} {m n : Machine}
  {r : Except Failure Value} {v : Value}

theorem EndAlike.symm (h : env.EndAlike x y scope m) : env.EndAlike y x scope m := ⟨h.2, h.1⟩

theorem EndAlike.trans (h : env.EndAlike x y scope m) (h' : env.EndAlike y z scope m) :
    env.EndAlike x z scope m := by
  constructor
  · intro r n hx
    obtain ⟨k, hy, hk⟩ := h.1 r n hx
    obtain ⟨l, hz, hl⟩ := h'.1 r k hy
    exact ⟨l, hz, hk.trans hl⟩
  · intro r n hz
    obtain ⟨k, hy, hk⟩ := h'.2 r n hz
    obtain ⟨l, hx, hl⟩ := h.2 r k hy
    exact ⟨l, hx, hk.trans hl⟩

/-- An end in a state that differs from that after some evaluation in nothing that counts. -/
theorem exists_end_of_essential {fuel fuel' : Nat} {o : Outcome Value}
    (hx : Run.evaluation scope (env.dispatch fuel x) m = (o, n))
    (hresult : (Run.evaluation scope (env.dispatch fuel' y) m).1 = .ofExcept r)
    (hstate : (Run.evaluation scope (env.dispatch fuel' y) m).2.essential = n.essential) :
    ∃ n', env.Ends y scope m r n' ∧ n.Alike n' := by
  obtain ⟨-, hdepth, hactive⟩ := env.balanced_evaluation fuel x scope m
  obtain ⟨-, hdepth', hactive'⟩ := env.balanced_evaluation fuel' y scope m
  rw [hx] at hdepth hactive
  refine ⟨(Run.evaluation scope (env.dispatch fuel' y) m).2, ⟨fuel', Prod.ext hresult rfl⟩, ?_⟩
  exact ⟨Machine.erasure_essential.store_eq hstate, Machine.erasure_essential.scopes_eq hstate,
    Machine.erasure_essential.scope_eq hstate, hdepth'.trans hdepth.symm,
    hactive'.trans hactive.symm, Machine.tracing_eq_of_essential hstate⟩

variable (hchoose : env.primitives.find? "if" = some Primitive.choose)
  (hprimitives : ∀ entry ∈ env.primitives, Primitive.Heedless entry.2)
  (place span place' span' : Span)
include hchoose hprimitives

theorem exists_end_of_taken {taken : Bool} (ht : env.Ends t scope m (.ok v) n)
    (htaken : Primitive.truth? v = some taken) (ha : taken = true → a' = a)
    (hb : taken = false → b' = b) {k : Machine}
    (h : env.Ends (.conditional place span t a b) scope m r k) :
    ∃ k', env.Ends (.conditional place' span' t a' b') scope m r k' ∧ k.Alike k' := by
  obtain ⟨fuel, hfuel⟩ := ht
  obtain ⟨fuel', hfuel'⟩ := h
  -- Fuel with which the condition, the given invocation and the other one all get through.
  let enough := fuel + fuel' + 1
  have hone : 1 ≤ enough := Nat.le_add_left _ _
  have ht : Run.evaluation scope (env.dispatch (enough + 2) t) m = (.ok v, n) :=
    evaluation_eq_of_le (show fuel ≤ fuel + fuel' + 1 + 2 by omega) hfuel
  have hx := evaluation_eq_of_le (show fuel' ≤ fuel + fuel' + 1 + 5 by omega) hfuel'
  obtain ⟨hresult, hstate⟩ :=
    (agree_dispatch_conditional hchoose hprimitives hone place span t a b).evaluation scope m m rfl
  obtain ⟨hresult', hstate'⟩ :=
    (agree_dispatch_conditional hchoose hprimitives hone place' span' t a' b').evaluation scope
      m m rfl
  rw [hx] at hresult hstate
  rw [evaluation_choice_congr ha hb ht htaken] at hresult' hstate'
  exact exists_end_of_essential hx (hresult'.trans hresult.symm) (hstate'.trans hstate.symm)

theorem endAlike_of_taken {taken : Bool} (ht : env.Ends t scope m (.ok v) n)
    (htaken : Primitive.truth? v = some taken) (ha : taken = true → a' = a)
    (hb : taken = false → b' = b) :
    env.EndAlike (.conditional place span t a b) (.conditional place' span' t a' b') scope m := by
  constructor
  · intro r k h
    exact exists_end_of_taken hchoose hprimitives _ _ _ _ ht htaken ha hb h
  · intro r k h
    exact exists_end_of_taken hchoose hprimitives _ _ _ _ ht htaken (fun h => (ha h).symm)
      (fun h => (hb h).symm) h

theorem exists_end_of_failed {f : Failure} (ht : env.Ends t scope m r n)
    (h : ∀ fuel, Run.evaluation scope (env.dispatch (fuel + 2) t) m = (.ofExcept r, n) →
      Run.evaluation scope (env.choice fuel t a b) m = (.failed f, n)) :
    ∃ n', env.Ends (.conditional place span t a b) scope m (.error f) n' ∧ n.Alike n' := by
  obtain ⟨fuel, hfuel⟩ := ht
  have hone : 1 ≤ fuel + 1 := Nat.le_add_left _ _
  obtain ⟨hresult, hstate⟩ :=
    (agree_dispatch_conditional hchoose hprimitives hone place span t a b).evaluation scope m m rfl
  have hle : fuel ≤ fuel + 1 + 2 := by omega
  rw [h (fuel + 1) (evaluation_eq_of_le hle hfuel)] at hresult hstate
  exact exists_end_of_essential hfuel hresult hstate

end Ends

/-- If primitives do not depend on the names of the running calls, then in every state in which the
evaluation of `t` comes to an end the following holds. If its value is null or false, whatever is
written for the first branch makes no difference, and if it is true or neither null nor a truth
value nor a number, whatever is written for the second one. If it is a number or the evaluation
fails, an invocation of `if` fails with all branches, in the state that `t` leaves. -/
theorem choose_ignores_untaken (env : Setting)
    (hchoose : env.primitives.find? "if" = some Primitive.choose)
    (hprimitives : ∀ entry ∈ env.primitives, Primitive.Heedless entry.2) (t : Node)
    (scope : Option Nat) (m n : Machine) (r : Except Failure Value) (ht : env.Ends t scope m r n)
    (place span place' span' : Span) :
    (∀ v, r = .ok v → (v = .null ∨ v = .bool false) → ∀ a b c,
        env.EndAlike (.conditional place span t a c) (.conditional place' span' t b c) scope m) ∧
      (∀ v, r = .ok v → v ≠ .null → v ≠ .bool false → ¬ v.IsNumber → ∀ a b c,
        env.EndAlike (.conditional place span t a b) (.conditional place' span' t a c) scope m) ∧
      (∀ v, r = .ok v → v.IsNumber → ∀ a b, ∃ n',
        env.Ends (.conditional place span t a b) scope m (.error (.conditionKind v.type)) n' ∧
          n.Alike n') ∧
      ∀ f, r = .error f → ∀ a b, ∃ n',
        env.Ends (.conditional place span t a b) scope m (.error f) n' ∧ n.Alike n' := by
  refine ⟨?_, ?_, ?_, ?_⟩
  · rintro v rfl hv a b c
    exact endAlike_of_taken hchoose hprimitives place span place' span' ht
      (Primitive.truth?_eq_some_false_iff.mpr hv) nofun fun _ => rfl
  · rintro v rfl hnull hfalse hnumber a b c
    exact endAlike_of_taken hchoose hprimitives place span place' span' ht
      (Primitive.truth?_eq_some_true hnull hfalse hnumber) (fun _ => rfl) nofun
  · rintro v rfl hv a b
    exact exists_end_of_failed hchoose hprimitives place span ht fun fuel h =>
      evaluation_choice_of_isNumber h hv
  · rintro f rfl a b
    exact exists_end_of_failed hchoose hprimitives place span ht fun fuel h =>
      evaluation_choice_of_failed h

/-- What an answer counts as. -/
def answeredTruth? : Outcome Value → Option Bool
  | .ok v => Primitive.truth? v
  | _ => none

theorem exists_of_answeredTruth? {o : Outcome Value} {taken : Bool}
    (h : answeredTruth? o = some taken) : ∃ v, o = .ok v ∧ Primitive.truth? v = some taken := by
  cases o with
  | ok v => exact ⟨v, rfl, h⟩
  | _ => cases h

open scoped Sample

/-- A condition that fails inside, is recovered from and ends in false, so that it does not matter
whether the first branch leaves a note or cannot be evaluated at all. -/
theorem choose_ignores_untaken_of_recovery :
    let env : Setting := ⟨Table.host, Primitive.standard ++
      Primitive.sample.filter fun entry => entry.1 != "stack"⟩
    let call (name : String) (parameters : List Node) : Node :=
      .invocation (.identifier name .absent) parameters .absent
    let number (n : Int) : Node := .literal (.integer n) .absent
    let t : Node := call "try" [call "if" [number 1, number 2, number 3],
      call "eq" [number 1, number 2]]
    let a : Node := call "mark" [number 1]
    let c : Node := call "mark" [number 2]
    ∃ v n n', env.Ends (.conditional .absent .absent t a c) none Machine.initial (.ok v) n ∧
      env.Ends (.conditional .absent .absent t (call "missing" []) c) none Machine.initial
        (.ok v) n' ∧
      n'.store = n.store ∧ n'.scopes = n.scopes ∧ n.store.events.length = 2 := by
  intro env call number t a c
  have hprimitives : ∀ entry ∈ env.primitives, Primitive.Heedless entry.2 := by
    intro entry hentry
    rcases List.mem_append.mp hentry with h | h
    · exact Primitive.heedless_standard entry h
    · obtain ⟨hsample, hstack⟩ := List.mem_filter.mp h
      exact Primitive.heedless_sample entry hsample (bne_iff_ne.mp hstack)
  obtain ⟨o, k, ht⟩ : ∃ o k, Run.evaluation none (env.dispatch 20 t) Machine.initial = (o, k) :=
    ⟨_, _, rfl⟩
  have hfalse : answeredTruth? (Run.evaluation none (env.dispatch 20 t) Machine.initial).1 =
      some false := by decide +kernel
  rw [ht] at hfalse
  obtain ⟨w, rfl, hw⟩ := exists_of_answeredTruth? hfalse
  let x : Node := .conditional .absent .absent t a c
  obtain ⟨o, n, hx⟩ : ∃ o n, Run.evaluation none (env.dispatch 20 x) Machine.initial = (o, n) :=
    ⟨_, _, rfl⟩
  have hanswer : (Run.evaluation none (env.dispatch 20 x) Machine.initial).1.isAnswer = true := by
    decide +kernel
  have hevents : (Run.evaluation none (env.dispatch 20 x) Machine.initial).2.store.events.length =
      2 := by decide +kernel
  rw [hx] at hanswer hevents
  obtain ⟨v, rfl⟩ := Outcome.exists_of_isAnswer hanswer
  have htest : env.Ends t none Machine.initial (.ok w) k := ⟨20, ht⟩
  have hend : env.Ends x none Machine.initial (.ok v) n := ⟨20, hx⟩
  obtain ⟨huntaken, -⟩ := choose_ignores_untaken env rfl hprimitives t none Machine.initial k _
    htest .absent .absent .absent .absent
  obtain ⟨hsame, -⟩ :=
    huntaken w rfl (Primitive.truth?_eq_some_false_iff.mp hw) a (call "missing" []) c
  obtain ⟨n', hend', halike⟩ := hsame _ _ hend
  exact ⟨v, n, n', hend, hend', halike.store, halike.scopes, hevents⟩

end Setting

end HostedLisp
