import HostedLisp.Host.Sample
import HostedLisp.Proofs.Host.Uniformity
import HostedLisp.Proofs.Primitive.Uniformity
import HostedLisp.Script
import HostedLisp.Proofs.Scope.Binding

/-!
Scripts that are run one after the other. Main statement: the answer to a script is the one that a
runner gives which has run nothing yet, whatever scripts were run before and however they ended, as
long as these have bound no names for good and changed nothing, and neither the host nor a primitive
goes by what it has recorded.
-/

namespace HostedLisp

/-- The answer with other identities. Reports have none. -/
def ScriptResult.rename (ρ : Renaming) : ScriptResult → ScriptResult
  | success v => success (v.rename ρ)
  | failure message token => failure message token

@[simp] theorem ScriptResult.messages_rename (ρ : Renaming) (result : ScriptResult) :
    (result.rename ρ).messages = result.messages := by
  cases result <;> rfl

@[simp] theorem ScriptResult.errorReport_rename (ρ : Renaming) (result : ScriptResult) :
    (result.rename ρ).errorReport = result.errorReport := by
  cases result <;> rfl

namespace Machine

/-- The state without what a script cannot see of those before it. -/
def rested (m : Machine) : Machine := { m with frames := [], current := none }

/-- Whether no evaluation is going on. -/
structure AtRest (m : Machine) : Prop where
  scope_eq : m.scope = Scopes.root
  depth_eq : m.depth = 0
  activeFrames_eq : m.activeFrames = 0

theorem Restored.atRest {m m' : Machine} (h : m.Restored m') (hm : m.AtRest) : m'.AtRest :=
  ⟨h.scope_eq.trans hm.scope_eq, h.depth_eq.trans hm.depth_eq,
    h.activeFrames_eq.trans hm.activeFrames_eq⟩

theorem AtRest.traceLine {m : Machine} (h : m.AtRest) (line : String) :
    (Run.traceLine line m).2.AtRest := by
  obtain ⟨hscope, hdepth, hactive, -⟩ := Inert.traceLine line m
  exact ⟨hscope.trans h.scope_eq, hdepth.trans h.depth_eq, hactive.trans h.activeFrames_eq⟩

end Machine

namespace Drift

section Reports

variable {δ : Drift} {m m' : Machine} {s s' : Store}

theorem text?_drift [HostClasses] [HostClasses.Anonymous] (h : δ.Stores s s') (f : Frame) :
    (f.rename δ.shifted).text? s' = f.text? s := by
  have hsources : (s'.settleAll (f.arguments.map (Value.rename δ.shifted))).mapM Value.source? =
      (s.settleAll f.arguments).mapM Value.source? := by
    rw [show Value.rename δ.shifted = δ.value from rfl, h.settleAll_eq, List.mapM_map]
    exact congrArg ((s.settleAll f.arguments).mapM ·) (funext (Value.source?_rename δ.shifted))
  rw [Frame.text?, Frame.text?, Frame.rename, hsources]

theorem Machines.stackTrace?_eq [HostClasses] [HostClasses.Anonymous] (h : δ.Machines m m') :
    m'.stackTrace? = m.stackTrace? := by
  have htexts : m'.frames.mapM (fun f => f.text? m'.store) =
      m.frames.mapM fun f => f.text? m.store := by
    rw [h.frames_eq, List.mapM_map]
    exact congrArg (m.frames.mapM ·) (funext (text?_drift h.store))
  rw [Machine.stackTrace?, Machine.stackTrace?, htexts, h.frames_eq, List.isEmpty_map]

theorem Machines.currentToken?_eq (h : δ.Machines m m') : m'.currentToken? = m.currentToken? := by
  rw [Machine.currentToken?, Machine.currentToken?, h.current_eq]
  cases m.current with
  | none => rfl
  | some v => cases v <;> rfl

theorem Machines.failureReport?_eq [HostClasses] [HostClasses.Anonymous] (h : δ.Machines m m')
    (source : String) (f : Failure) : m'.failureReport? source f = m.failureReport? source f := by
  rw [Machine.failureReport?, Machine.failureReport?, h.currentToken?_eq, h.stackTrace?_eq]

theorem map_rename_failureReport? [HostClasses] (ρ : Renaming) (m : Machine) (source : String)
    (f : Failure) :
    (m.failureReport? source f).map (ScriptResult.rename ρ) = m.failureReport? source f := by
  unfold Machine.failureReport?
  cases m.stackTrace? <;> rfl

theorem Machines.rested (h : δ.Machines m m') : δ.Machines m.rested m'.rested :=
  { h with frames_eq := rfl, current_eq := rfl }

end Reports

end Drift

namespace Runner

open Drift

/-- The runner after scripts, whatever their answers. -/
def after [HostClasses] (r : Runner) (history : List String) : Runner :=
  history.foldl (fun r source => (r.handleScript source).2) r

section Lockstep

variable {env : Setting} {δ : Drift}

theorem eval_current (env : Setting) (x : Node) (m : Machine) (current : Option Value) :
    env.eval x none { m with current := current } = env.eval x none m := by
  have hample : Setting.ample = 9999999 + 1 := rfl
  rw [Setting.eval, Run.evaluation_eq, Run.evaluation_eq, hample, Setting.dispatch.eq_def]
  rfl

theorem runs_evalLast (henv : env.Admits δ) (xs : List Node) (last : Value) :
    δ.Runs δ.value (evalLast env xs last) (evalLast env xs (δ.value last)) := by
  induction xs generalizing last with
  | nil => exact .ofEffect (.settle last)
  | cons x rest ih => exact (Setting.runs_eval henv x).bind ih

theorem evalLast_cons_current (env : Setting) (x : Node) (rest : List Node) (last : Value)
    (m : Machine) (current : Option Value) :
    evalLast env (x :: rest) last { m with current := current } =
      evalLast env (x :: rest) last m := by
  change Run.bind (env.eval x none) _ _ = Run.bind (env.eval x none) _ _
  rw [Run.bind, Run.bind, eval_current]

/-- The answer to a script whose evaluation has come to an end, and the runner after it. -/
def finish [HostClasses] (env : Setting) (source : String) (result : Outcome Value) (m : Machine) :
    Except Failure ScriptResult × Runner :=
  match settled result with
  | .ok v => (.ok (.success v), ⟨env, m⟩)
  | .error f =>
      match m.failureReport? source f with
      | .error f' => (.error f', ⟨env, m⟩)
      | .ok report =>
          (.ok report,
            ⟨env, (Run.traceLine ("handle_script failed: " ++ f.kind ++ " " ++ f.message) m).2⟩)

theorem handleScript_eq_finish [HostClasses] {r : Runner} {source : String} {nodes : List Node}
    (h : parseMany source = .ok nodes) :
    r.handleScript source =
      finish r.setting source (evalLast r.setting nodes .null { r.machine with frames := [] }).1
        (evalLast r.setting nodes .null { r.machine with frames := [] }).2 := by
  unfold handleScript
  rw [h]
  rfl

theorem machine_finish [HostClasses] (env : Setting) (source : String) (result : Outcome Value)
    (m : Machine) :
    (finish env source result m).2.machine = m ∨
      ∃ line, (finish env source result m).2.machine = (Run.traceLine line m).2 := by
  unfold finish
  split
  · exact .inl rfl
  · split
    · exact .inl rfl
    · exact .inr ⟨_, rfl⟩

theorem finish_drift [HostClasses] [HostClasses.Anonymous] (env : Setting) {m m' : Machine}
    (h : δ.Machines m m') (source : String) (result : Outcome Value) :
    (finish env source (result.map δ.value) m').1 =
        (finish env source result m).1.map (ScriptResult.rename δ.shifted) ∧
      δ.Machines (finish env source result m).2.machine.rested
        (finish env source (result.map δ.value) m').2.machine.rested := by
  have hfailed : settled (result.map δ.value) = (settled result).map δ.value := by
    cases result <;> rfl
  unfold finish
  rw [hfailed]
  cases settled result with
  | ok v => exact ⟨rfl, h.rested⟩
  | error f =>
      have hreport := map_rename_failureReport? δ.shifted m source f
      dsimp only [Except.map]
      rw [h.failureReport?_eq source f]
      cases hr : m.failureReport? source f with
      | error f' => exact ⟨rfl, h.rested⟩
      | ok report =>
          rw [hr] at hreport
          exact ⟨hreport.symm, ((Runs.traceLine _ _) m m' h).2.rested⟩

/-- A script does the same on two runners whose states differ by no more than a drift and what is
forgotten between scripts. -/
theorem handleScript_drift [HostClasses] [HostClasses.Anonymous] {r r' : Runner}
    (hsetting : r'.setting = r.setting)
    (henv : r.setting.Admits δ) (h : δ.Machines r.machine.rested r'.machine.rested)
    (source : String) :
    (r'.handleScript source).1 = (r.handleScript source).1.map (ScriptResult.rename δ.shifted) ∧
      δ.Machines (r.handleScript source).2.machine.rested
        (r'.handleScript source).2.machine.rested := by
  cases hparse : parseMany source with
  | error e =>
      unfold handleScript
      rw [hparse]
      exact ⟨rfl, h⟩
  | ok nodes =>
      rw [handleScript_eq_finish hparse, handleScript_eq_finish hparse, hsetting]
      cases nodes with
      | nil =>
          -- Nothing is evaluated, so that no report asks for the node at hand either.
          have hnull : r'.machine.store.settle .null = δ.value (r.machine.store.settle .null) :=
            h.store.settle_eq .null
          exact ⟨congrArg (fun v => Except.ok (ScriptResult.success v)) hnull, h⟩
      | cons x rest =>
          -- The runners may have different nodes at hand, but none is looked at before it is set.
          obtain ⟨hresult, hmachines⟩ := runs_evalLast henv (x :: rest) .null _ _ h
          have hcurrent := evalLast_cons_current r.setting x rest .null
          rw [← hcurrent { r.machine with frames := [] } none,
            ← hcurrent { r'.machine with frames := [] } none]
          have hfinish := finish_drift r.setting hmachines source
            (evalLast r.setting (x :: rest) .null r.machine.rested).1
          rw [← hresult] at hfinish
          exact hfinish

theorem setting_handleScript [HostClasses] (r : Runner) (source : String) :
    (r.handleScript source).2.setting = r.setting := by
  cases hparse : parseMany source with
  | error e =>
      unfold handleScript
      rw [hparse]
  | ok nodes =>
      rw [handleScript_eq_finish hparse, finish]
      split
      · rfl
      · split <;> rfl

theorem atRest_evalLast {m : Machine} (h : m.AtRest) (xs : List Node) (last : Value) :
    (evalLast env xs last m).2.AtRest := by
  induction xs generalizing last m with
  | nil => exact h
  | cons x rest ih =>
      have heval : (env.eval x none m).2.AtRest :=
        (env.restored_evaluation Setting.ample x none (h.activeFrames_eq ▸ Nat.zero_le _)
          fun _ => h.activeFrames_eq).atRest h
      change (Run.bind (env.eval x none) _ m).2.AtRest
      unfold Run.bind
      cases hx : env.eval x none m with
      | mk o m' =>
          rw [hx] at heval
          cases o with
          | ok v => exact ih heval v
          | failed f => exact heval
          | unfinished => exact heval

variable [HostClasses]

theorem atRest_finish {m : Machine} (h : m.AtRest) (source : String) (result : Outcome Value) :
    (finish env source result m).2.machine.AtRest := by
  unfold finish
  split
  · exact h
  · split
    · exact h
    · exact h.traceLine _

theorem atRest_handleScript {r : Runner} (h : r.machine.AtRest) (source : String) :
    (r.handleScript source).2.machine.AtRest := by
  have hstart : ({ r.machine with frames := [] } : Machine).AtRest :=
    ⟨h.scope_eq, h.depth_eq, h.activeFrames_eq⟩
  cases hparse : parseMany source with
  | error e =>
      unfold handleScript
      rw [hparse]
      exact hstart
  | ok nodes =>
      rw [handleScript_eq_finish hparse]
      exact atRest_finish (atRest_evalLast hstart nodes .null) source _

end Lockstep

end Runner

namespace Drift

/-- No drift at all. -/
def zero (first : Identity) (h : 0 < first) : Drift := ⟨first, 0, 0, h⟩

section Zero

variable {first : Identity} {hfirst : 0 < first}

theorem shifted_zero (i : Identity) : (zero first hfirst).shifted i = i := by
  change (if i < first then i else i + 0) = i
  split <;> rfl

theorem value_zero (v : Value) : (zero first hfirst).value v = v :=
  v.rename_eq_self fun i _ => shifted_zero i

theorem place_zero (i : Nat) : (zero first hfirst).place i = i := by
  unfold place
  split
  · rename_i h
    exact h.symm
  · rfl

theorem machines_zero {m : Machine} (hnonempty : 0 < m.scopes.all.length)
    (hroot : (m.scopes.all[0]?).bind Scope.parent = none)
    (hnext : first ≤ m.store.nextIdentity) : (zero first hfirst).Machines m.rested m.rested where
  scopes := by
    refine ⟨fun i => ?_, rfl, hnonempty, hroot⟩
    have hscope : (zero first hfirst).scope = id := by
      funext sc
      have hplace : (zero first hfirst).place = id := funext place_zero
      have hbinding : Binding.rename (zero first hfirst).shifted = id :=
        funext fun b => congrArg (Binding.mk b.name b.declared) (value_zero b.value)
      rw [scope, hplace, hbinding, Option.map_id, List.map_id]
      rfl
    rw [place_zero, hscope, Option.map_id]
    rfl
  scope_eq := (place_zero _).symm
  frames_eq := rfl
  activeFrames_eq := rfl
  depth_eq := rfl
  current_eq := rfl
  store := by
    have hchange : Change.rename (zero first hfirst).shifted = id :=
      funext fun c => c.rename_eq_self fun i _ => shifted_zero i
    exact ⟨by rw [hchange, List.map_id], rfl, hnext⟩

end Zero

end Drift

/-- What a runner is constructed from: what evaluation works with, a store, and the values of the
names to bind. The identities in the values, if they have any, were given out by the store. -/
structure Construction where
  setting : Setting
  store : Store
  globals : List (Value × Value)
  next_pos : 0 < store.nextIdentity
  changes_issued : ∀ c ∈ store.changes, ∀ i ∈ c.identities, i < store.nextIdentity
  globals_issued : ∀ b ∈ globals, ∀ i ∈ b.2.identities, i < store.nextIdentity

/-- The runner, if all names can be bound. -/
def Construction.runner? [HostClasses] (c : Construction) : Except Failure Runner :=
  (Runner.start c.setting c.store).bindAll c.globals

namespace Machine

/-- Whether nothing was evaluated yet: there is the root only, and all identities that are bound or
changed were given out. -/
structure Fresh (m : Machine) : Prop where
  atRest : m.AtRest
  scopes_eq : m.scopes.all = [⟨none, m.scopes.own Scopes.root⟩]
  next_pos : 0 < m.store.nextIdentity
  changes_issued : ∀ c ∈ m.store.changes, ∀ i ∈ c.identities, i < m.store.nextIdentity
  bindings_issued : ∀ b ∈ m.scopes.own Scopes.root, ∀ i ∈ b.value.identities,
    i < m.store.nextIdentity

theorem insert_root {t : Scopes} (b : Binding) (h : t.all = [⟨none, t.own Scopes.root⟩]) :
    (t.insert Scopes.root b).own Scopes.root = (t.own Scopes.root).insert b ∧
      (t.insert Scopes.root b).all = [⟨none, (t.insert Scopes.root b).own Scopes.root⟩] := by
  generalize t.own Scopes.root = bs at h
  obtain rfl : t = ⟨[⟨none, bs⟩]⟩ := congrArg Scopes.mk h
  exact ⟨rfl, rfl⟩

theorem bindRoot_eq [HostClasses] (name v : Value) (m : Machine) :
    bindRoot name none v m =
      match Binding.of? name none (m.store.adopt v).1 with
      | .ok b =>
          (.ok b,
            { m with
              scopes := m.scopes.insert Scopes.root b
              store := (m.store.adopt v).2 })
      | .error f => (.failed f, { m with store := (m.store.adopt v).2 }) :=
  bindIn_eq Scopes.root name none v m

theorem Fresh.bind [HostClasses] {m : Machine} (h : m.Fresh) (name : Value) {v : Value}
    (hv : ∀ i ∈ v.identities, i < m.store.nextIdentity) :
    (bindRoot name none v m).2.Fresh ∧
      m.store.nextIdentity ≤ (bindRoot name none v m).2.store.nextIdentity := by
  have hle : m.store.nextIdentity ≤ (v.place m.store.nextIdentity).2 := Value.le_place v _
  have hnext : 0 < (v.place m.store.nextIdentity).2 := Nat.lt_of_lt_of_le h.next_pos hle
  have hchanges : ∀ c ∈ m.store.changes, ∀ i ∈ c.identities, i < (v.place m.store.nextIdentity).2 :=
    fun c hc i hi => Nat.lt_of_lt_of_le (h.changes_issued c hc i hi) hle
  have hbindings : ∀ b ∈ m.scopes.own Scopes.root, ∀ i ∈ b.value.identities,
      i < (v.place m.store.nextIdentity).2 :=
    fun b hb i hi => Nat.lt_of_lt_of_le (h.bindings_issued b hb i hi) hle
  have hrest : ∀ scopes store, ({ m with scopes := scopes, store := store } : Machine).AtRest :=
    fun _ _ => ⟨h.atRest.scope_eq, h.atRest.depth_eq, h.atRest.activeFrames_eq⟩
  rw [bindRoot_eq]
  cases hb : Binding.of? name none (m.store.adopt v).1 with
  | error f => exact ⟨⟨hrest _ _, h.scopes_eq, hnext, hchanges, hbindings⟩, hle⟩
  | ok b =>
      obtain ⟨hown, hall⟩ := insert_root b h.scopes_eq
      refine ⟨⟨hrest _ _, hall, hnext, hchanges, ?_⟩, hle⟩
      intro b' hb' i hi
      dsimp only at hb'
      rw [hown] at hb'
      rcases Bindings.mem_insert hb' with rfl | hb'
      · rw [Binding.value_of_of? hb] at hi
        rcases Value.identities_place v _ i hi with hi | hi
        · exact Nat.lt_of_lt_of_le (hv i hi) hle
        · exact hi
      · exact hbindings b' hb' i hi

theorem mapAll_invariant {α β : Type} {P : Machine → Prop} {f : α → Run β} {xs : List α}
    (hf : ∀ x ∈ xs, ∀ m, P m → P (f x m).2) {m : Machine} (hm : P m) :
    P (Run.mapAll f xs m).2 := by
  induction xs generalizing m with
  | nil => exact hm
  | cons x xs ih =>
      have hx := hf x List.mem_cons_self m hm
      have hxs := fun m' hm' => ih (fun y hy => hf y (List.mem_cons_of_mem _ hy)) (m := m') hm'
      rw [Run.mapAll, Run.bind]
      cases hr : f x m with
      | mk o m' =>
          rw [hr] at hx
          have hrest := hxs m' hx
          cases o with
          | failed _ => exact hx
          | unfinished => exact hx
          | ok y =>
              dsimp only
              rw [Run.bind]
              cases hmap : Run.mapAll f xs m' with
              | mk o m'' =>
                  rw [hmap] at hrest
                  cases o <;> exact hrest

theorem Fresh.bindAll [HostClasses] {m : Machine} (h : m.Fresh) (globals : List (Value × Value))
    (hglobals : ∀ b ∈ globals, ∀ i ∈ b.2.identities, i < m.store.nextIdentity) :
    (bindAllRoot globals m).2.Fresh := by
  have hall := mapAll_invariant
    (P := fun m' => m'.Fresh ∧ m.store.nextIdentity ≤ m'.store.nextIdentity)
    (f := fun b : Value × Value => bindRoot b.1 none b.2)
    (fun b (hb : b ∈ globals) m' hm' => by
      have hbind := hm'.1.bind b.1 fun i hi => Nat.lt_of_lt_of_le (hglobals b hb i hi) hm'.2
      exact ⟨hbind.1, Nat.le_trans hm'.2 hbind.2⟩)
    ⟨h, Nat.le_refl _⟩
  change (Run.bind _ _ m).2.Fresh
  rw [Run.bind]
  cases hmap : Run.mapAll (fun b : Value × Value => bindRoot b.1 none b.2) globals m with
  | mk o m' =>
      rw [hmap] at hall
      cases o <;> exact hall.1

end Machine

theorem Machine.Fresh.rename_changes {m : Machine} (h : m.Fresh) {δ : Drift}
    (hfirst : δ.first = m.store.nextIdentity) :
    m.store.changes.map (Change.rename δ.shifted) = m.store.changes := by
  rw [List.map_congr_left (g := id), List.map_id]
  intro c hc
  exact c.rename_eq_self fun i hi =>
    Renaming.shift_of_lt (hfirst ▸ h.changes_issued c hc i hi)

namespace Construction

theorem fresh [HostClasses] {c : Construction} {r : Runner} (h : c.runner? = .ok r) :
    r.machine.Fresh ∧ r.setting = c.setting := by
  have hstart : (Runner.start c.setting c.store).machine.Fresh :=
    ⟨⟨rfl, rfl, rfl⟩, rfl, c.next_pos, c.changes_issued, nofun⟩
  have hbound := hstart.bindAll c.globals c.globals_issued
  change (Runner.settled (Machine.bindAllRoot c.globals _).1).map
    (fun _ => Runner.mk c.setting (Machine.bindAllRoot c.globals _).2) = .ok r at h
  cases hsettled : Runner.settled (Machine.bindAllRoot c.globals
      (Runner.start c.setting c.store).machine).1 with
  | error f =>
      rw [hsettled] at h
      cases h
  | ok _ =>
      rw [hsettled] at h
      cases h
      exact ⟨hbound, rfl⟩

end Construction

/-- Whether neither the host nor a primitive goes by what it has recorded, or by the choice of the
identities from some `first` on. -/
structure Setting.Stateless [HostClasses] (env : Setting) (first : Identity) : Prop where
  host : ∀ δ : Drift, δ.first = first → δ.AdmitsHost env.host
  primitives : ∀ entry ∈ env.primitives,
    entry ∈ Primitive.standard ∨
      (∃ c, entry ∈ Primitive.library c ∧ ∀ δ : Drift, δ.first = first → δ.AdmitsCatalogue c) ∨
      ∀ δ : Drift, δ.first = first → δ.Admits entry.2

theorem Setting.Stateless.admits [HostClasses] [HostClasses.Anonymous] {env : Setting}
    {first : Identity} (h : env.Stateless first)
    {δ : Drift} (hδ : δ.first = first) : env.Admits δ where
  host := h.host δ hδ
  primitives name p hp := by
    obtain ⟨entry, hentry, rfl⟩ := Option.map_eq_some_iff.mp hp
    rcases h.primitives entry (List.mem_of_find?_eq_some hentry) with hmem | ⟨c, hmem, hc⟩ | hadmits
    · exact Primitive.admits_standard δ hmem
    · exact Primitive.admits_library (hc δ hδ) hmem
    · exact hadmits δ hδ

theorem Setting.Stateless.ofCatalogue [HostClasses] {r : Reflection} {first : Identity}
    (hcatalogue : ∀ δ : Drift, δ.first = first → δ.AdmitsCatalogue r.catalogue)
    (htypes : ∀ t ∈ r.types, ∀ i ∈ t.2.identities, i < first) :
    Setting.Stateless ⟨r.host, Primitive.standard ++ Primitive.library r.catalogue⟩ first where
  host δ hδ := Reflection.admits_host (hcatalogue δ hδ) (hδ ▸ htypes)
  primitives _ hentry :=
    (List.mem_append.mp hentry).imp_right fun h => .inl ⟨r.catalogue, h, hcatalogue⟩

namespace Runner

open Drift

section History

variable {r : Runner} {first : Identity} {hfirst : 0 < first}

/-- What one script after the other keeps: the machine is at rest and has drifted from itself by
nothing, so that no identities from before are given out again and the root is where it was. -/
theorem after_invariant [HostClasses] [HostClasses.Anonymous]
    (hstateless : r.setting.Stateless first) (hrest : r.machine.AtRest)
    (hself : (Drift.zero first hfirst).Machines r.machine.rested r.machine.rested)
    (history : List String) :
    (r.after history).setting = r.setting ∧ (r.after history).machine.AtRest ∧
      (Drift.zero first hfirst).Machines (r.after history).machine.rested
        (r.after history).machine.rested := by
  induction history generalizing r with
  | nil => exact ⟨rfl, hrest, hself⟩
  | cons source history ih =>
      have hsetting := r.setting_handleScript source
      have hself' := (handleScript_drift rfl (hstateless.admits rfl) hself source).2
      have hrest' := atRest_handleScript hrest source
      obtain ⟨hsetting', hafter⟩ := ih (hsetting ▸ hstateless) hrest' hself'
      exact ⟨hsetting'.trans hsetting, hafter⟩

theorem root_eq {t : Scopes} (hnonempty : 0 < t.all.length)
    (hparent : (t.all[0]?).bind Scope.parent = none) :
    t.all[0]? = some ⟨none, t.own Scopes.root⟩ := by
  have hget : t.all[0]? = some t.all[0] := List.getElem?_eq_getElem hnonempty
  rw [hget] at hparent
  rw [Scopes.own, Scopes.root, hget]
  exact congrArg (fun parent => some (Scope.mk parent t.all[0].bindings)) hparent

/-- The drift of a used runner from itself when it was fresh. -/
theorem machines_after (hfresh : r.machine.Fresh) {used : Runner} (hrest : used.machine.AtRest)
    (hself : (Drift.zero r.machine.store.nextIdentity hfresh.next_pos).Machines used.machine.rested
      used.machine.rested)
    (hbindings : used.machine.scopes.own Scopes.root = r.machine.scopes.own Scopes.root)
    (hchanges : used.machine.store.changes = r.machine.store.changes) (δ : Drift)
    (hfirst : δ.first = r.machine.store.nextIdentity)
    (hidentities : δ.identities =
      used.machine.store.nextIdentity - r.machine.store.nextIdentity)
    (hscopes : δ.scopes = used.machine.scopes.all.length - 1) :
    δ.Machines r.machine.rested used.machine.rested := by
  have hold : ∀ i < r.machine.store.nextIdentity, δ.shifted i = i :=
    fun i hi => Renaming.shift_of_lt (hfirst ▸ hi)
  have hnonempty : 0 < used.machine.scopes.all.length := hself.scopes.nonempty
  have hle : r.machine.store.nextIdentity ≤ used.machine.store.nextIdentity := hself.store.first_le
  have htrees : δ.Trees r.machine.scopes used.machine.scopes := by
    have hall := hfresh.scopes_eq
    -- Only the root has a place in the fresh tree; the scopes opened since have none.
    refine ⟨fun i => ?_, ?_, ?_, ?_⟩
    · rw [hall, place]
      cases i with
      | zero =>
          have hroot : (r.machine.scopes.own Scopes.root).map (Binding.rename δ.shifted) =
              r.machine.scopes.own Scopes.root := by
            rw [List.map_congr_left (g := id), List.map_id]
            intro b hb
            have hvalue := b.value.rename_eq_self fun i hi =>
              hold i (hfresh.bindings_issued b hb i hi)
            exact congrArg (Binding.mk b.name b.declared) hvalue
          rw [if_pos rfl, root_eq hnonempty hself.scopes.root_parent, hbindings]
          exact congrArg (fun bs => some (Scope.mk none bs)) hroot.symm
      | succ i =>
          rw [if_neg (Nat.succ_ne_zero i), List.getElem?_eq_none (by omega)]
          rfl
    · rw [hall, hscopes, List.length_singleton]
      omega
    · rw [hall]
      exact Nat.one_pos
    · rw [hall]
      rfl
  have hstores : δ.Stores r.machine.store used.machine.store := by
    refine ⟨hchanges.trans (hfresh.rename_changes hfirst).symm, ?_, Nat.le_of_eq hfirst⟩
    rw [hidentities, Nat.add_sub_of_le hle]
  have hscope : used.machine.scope = δ.place r.machine.scope := by
    rw [hrest.scope_eq, hfresh.atRest.scope_eq]
    rfl
  exact ⟨htrees, hscope, rfl, hrest.activeFrames_eq.trans hfresh.atRest.activeFrames_eq.symm,
    hrest.depth_eq.trans hfresh.atRest.depth_eq.symm, rfl, hstores⟩

end History

/-- A script is answered as by a runner that was just constructed from the same things, whatever
scripts were run before: the status, the value, the report with its place and calls, and the token
are the same. Lists and objects that the script itself makes have other identities. The scripts
before may fail in whatever way, but not bind names in the root or change what others see. -/
theorem handleScript_after [HostClasses] [HostClasses.Anonymous] (c : Construction) (r : Runner)
    (hr : c.runner? = .ok r)
    (hstateless : c.setting.Stateless r.machine.store.nextIdentity) (history : List String)
    (source : String)
    (hbindings : (r.after history).machine.scopes.own Scopes.root =
      r.machine.scopes.own Scopes.root)
    (hchanges : (r.after history).machine.store.changes = r.machine.store.changes) :
    ∃ ρ : Renaming, (∀ i < r.machine.store.nextIdentity, ρ i = i) ∧
      ((r.after history).handleScript source).1 =
        (r.handleScript source).1.map (ScriptResult.rename ρ) := by
  obtain ⟨hfresh, hsetting⟩ := Construction.fresh hr
  rw [← hsetting] at hstateless
  have hself : (Drift.zero _ hfresh.next_pos).Machines r.machine.rested r.machine.rested :=
    Drift.machines_zero (by rw [hfresh.scopes_eq]; exact Nat.one_pos)
      (by rw [hfresh.scopes_eq]; rfl) (Nat.le_refl _)
  obtain ⟨hsame, hrest, hself'⟩ := after_invariant hstateless hfresh.atRest hself history
  have hdrift := machines_after hfresh hrest hself' hbindings hchanges ⟨_, _, _, hfresh.next_pos⟩
    rfl rfl rfl
  refine ⟨_, fun i hi => Renaming.shift_of_lt hi,
    (handleScript_drift hsame (hstateless.admits rfl) hdrift source).1⟩

open scoped Sample

/-- A script that cannot be read, and failures in a call and in a member of a list. -/
theorem handleScript_after_failures :
    let host : Reflection := ⟨Builtin.catalogue, [], false, false⟩
    let setting : Setting :=
      ⟨host.host, Primitive.standard ++ Primitive.library Builtin.catalogue⟩
    let r : Runner := .start setting .empty
    let history := ["(concat", "[[1] (missing)]", "(.index [1 2] 3)"]
    let source := "[[1] (.index [1 2] 2)]"
    ∃ ρ : Renaming, (∀ i < 1, ρ i = i) ∧
      ((r.after history).handleScript source).1 =
        (r.handleScript source).1.map (ScriptResult.rename ρ) := by
  intro host setting r history source
  let c : Construction := ⟨setting, .empty, [], Nat.one_pos, nofun, nofun⟩
  have hstateless : setting.Stateless 1 :=
    .ofCatalogue (fun δ _ => Builtin.admits_catalogue δ) nofun
  have hbindings : (r.after history).machine.scopes.own Scopes.root = [] :=
    List.isEmpty_iff.mp (by decide +kernel)
  have hchanges : (r.after history).machine.store.changes = [] :=
    List.isEmpty_iff.mp (by decide +kernel)
  exact handleScript_after c r rfl hstateless history source hbindings hchanges

end Runner

end HostedLisp
