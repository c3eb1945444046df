import HostedLisp.Proofs.Evaluation.Chains

namespace HostedLisp

/-- Whether a computation has the result and the store of one over the chain of its scope, and
leaves the scopes as they were. -/
def Refines {α : Type} (r : Run α) (f : Scoped α) : Prop :=
  ∀ m : Machine, m.scope < m.scopes.all.length →
    f (m.scopes.chain m.scope) m.store = ((r m).1, (r m).2.store) ∧
      (r m).2.scope = m.scope ∧ m.scopes.Keeps false m.scope (r m).2.scopes

/-- Whether a computation has the result, the chain and the store of a block over the chain of its
scope, and leaves the scopes as they were, except for the bindings of its own if it is opened. -/
def Simulates {α : Type} (opened : Bool) (r : Run α) (f : Block α) : Prop :=
  ∀ m : Machine, m.scope < m.scopes.all.length →
    f (m.scopes.chain m.scope) m.store =
        ((r m).1, (r m).2.scopes.chain m.scope, (r m).2.store) ∧
      (r m).2.scope = m.scope ∧ m.scopes.Keeps opened m.scope (r m).2.scopes

/-- Whether a computation answers and changes neither the scopes nor the store. -/
def Silent (r : Run Unit) : Prop :=
  ∀ m : Machine, (r m).1 = .ok () ∧ (r m).2.scopes = m.scopes ∧ (r m).2.scope = m.scope ∧
    (r m).2.store = m.store

theorem Run.bind_assoc {α β γ : Type} (r : Run α) (k : α → Run β) (l : β → Run γ) :
    (r >>= k) >>= l = r >>= fun a => k a >>= l := by
  funext m
  change Run.bind (Run.bind r k) l m = Run.bind r (fun a => Run.bind (k a) l) m
  rw [Run.bind, Run.bind, Run.bind]
  cases r m with
  | mk o m' => cases o <;> rfl

theorem bindAt_eq (i : Nat) (name : String) (v : Value) (m : Machine) :
    Run.bindAt i name v m =
      match Binding.ofText? name v with
      | .ok b => (.ok (), { m with scopes := m.scopes.insert i b })
      | .error x => (.failed x, m) := by
  unfold Run.bindAt Scopes.bindText
  cases Binding.ofText? name v <;> rfl

section Silent

theorem silent_visit (v : Value) : Silent (Run.visit v) :=
  fun _ => ⟨rfl, rfl, rfl, rfl⟩

theorem silent_traceLine (line : String) : Silent (Run.traceLine line) := by
  intro m
  by_cases h : m.tracing <;> simp [Run.traceLine, Run.modify, h]

end Silent

namespace Simulates

variable {α β : Type} {opened : Bool} {r : Run α} {f : Block α}

theorem ofScoped {g : Scoped α} (h : Refines r g) : Simulates opened r (Block.ofScoped g) := by
  intro m hm
  obtain ⟨hresult, hscope, hkeeps⟩ := h m hm
  refine ⟨?_, hscope, hkeeps.weaken opened m.scope⟩
  rw [Block.ofScoped, hresult, Scopes.chain_of_keeps_closed hkeeps hm]

theorem fail (x : Failure) : Simulates opened (Run.fail x : Run α) (Block.fail x) :=
  fun _ _ => ⟨rfl, rfl, .refl _ _ _⟩

theorem unfinished : Simulates opened (Run.unfinished : Run α) Block.unfinished :=
  fun _ _ => ⟨rfl, rfl, .refl _ _ _⟩

theorem after {k : Run β} {g : Block β} {m m' : Machine} (hm : m.scope < m.scopes.all.length)
    (hscope : m'.scope = m.scope) (hkeeps : m.scopes.Keeps opened m.scope m'.scopes)
    (hk : Simulates opened k g) :
    g (m'.scopes.chain m.scope) m'.store =
        ((k m').1, (k m').2.scopes.chain m.scope, (k m').2.store) ∧
      (k m').2.scope = m.scope ∧ m.scopes.Keeps opened m.scope (k m').2.scopes := by
  have hm' : m'.scope < m'.scopes.all.length := hscope ▸ Nat.lt_of_lt_of_le hm hkeeps.length_le
  obtain ⟨hresult, hscope', hkeeps'⟩ := hk m' hm'
  rw [hscope] at hresult hkeeps'
  exact ⟨hresult, hscope'.trans hscope, hkeeps.trans hkeeps'⟩

theorem bind {k : α → Run β} {g : α → Block β} (h : Simulates opened r f)
    (hk : ∀ a, Simulates opened (k a) (g a)) : Simulates opened (r >>= k) (f >>= g) := by
  intro m hm
  obtain ⟨hresult, hscope, hkeeps⟩ := h m hm
  change Block.bind f g _ _ =
      ((Run.bind r k m).1, (Run.bind r k m).2.scopes.chain _, (Run.bind r k m).2.store) ∧
    (Run.bind r k m).2.scope = _ ∧ m.scopes.Keeps _ _ (Run.bind r k m).2.scopes
  rw [Block.bind, Run.bind, hresult]
  cases hr : r m with
  | mk o m' =>
      rw [hr] at hscope hkeeps
      cases o with
      | ok a => exact after hm hscope hkeeps (hk a)
      | failed x => exact ⟨rfl, hscope, hkeeps⟩
      | unfinished => exact ⟨rfl, hscope, hkeeps⟩

theorem silent_bind {q : Run Unit} {k : Unit → Run α} (hq : Silent q)
    (hk : Simulates opened (k ()) f) : Simulates opened (q >>= k) f := by
  intro m hm
  obtain ⟨hresult, hscopes, hscope, hstore⟩ := hq m
  change f _ _ =
      ((Run.bind q k m).1, (Run.bind q k m).2.scopes.chain _, (Run.bind q k m).2.store) ∧
    (Run.bind q k m).2.scope = _ ∧ m.scopes.Keeps _ _ (Run.bind q k m).2.scopes
  rw [Run.bind]
  cases hr : q m with
  | mk o m' =>
      rw [hr] at hresult hscopes hscope hstore
      obtain rfl : o = .ok () := hresult
      have h := hk m' (by rw [hscope, hscopes]; exact hm)
      rwa [hscopes, hscope, hstore] at h

theorem mapAll {γ : Type} {p : γ → Run α} {g : γ → Block α} (h : ∀ x, Simulates opened (p x) (g x))
    (xs : List γ) : Simulates opened (Run.mapAll p xs) (Block.mapAll g xs) := by
  induction xs with
  | nil => exact fun _ _ => ⟨rfl, rfl, .refl _ _ _⟩
  | cons x xs ih =>
      exact bind (h x) fun y => bind ih fun ys => fun _ _ => ⟨rfl, rfl, .refl _ _ _⟩

end Simulates

/-- A computation over the chain is a block that binds nothing. -/
theorem refines_iff_simulates {α : Type} {r : Run α} {f : Scoped α} :
    Refines r f ↔ Simulates false r (Block.ofScoped f) := by
  constructor
  · intro h
    exact .ofScoped h
  · intro h m hm
    obtain ⟨hresult, hscope, hkeeps⟩ := h m hm
    obtain ⟨hvalue, hrest⟩ := Prod.mk.inj hresult
    obtain ⟨-, hstore⟩ := Prod.mk.inj hrest
    exact ⟨Prod.ext hvalue hstore, hscope, hkeeps⟩

theorem ofScoped_bind {α β : Type} (f : Scoped α) (g : α → Scoped β) :
    Block.ofScoped (f >>= g) = Block.ofScoped f >>= fun a => Block.ofScoped (g a) := by
  funext chain s
  change Block.ofScoped (Scoped.bind f g) chain s =
    Block.bind (Block.ofScoped f) (fun a => Block.ofScoped (g a)) chain s
  rw [Block.bind, Block.ofScoped, Block.ofScoped, Scoped.bind]
  cases f chain s with
  | mk o s' => cases o <;> rfl

namespace Refines

variable {α β : Type} {r : Run α} {f : Scoped α}

theorem pure (a : α) : Refines (Pure.pure a) (Pure.pure a) :=
  fun _ _ => ⟨rfl, rfl, .refl _ _ _⟩

theorem fail (x : Failure) : Refines (Run.fail x : Run α) (Scoped.fail x) :=
  fun _ _ => ⟨rfl, rfl, .refl _ _ _⟩

theorem unfinished : Refines (Run.unfinished : Run α) Scoped.unfinished :=
  fun _ _ => ⟨rfl, rfl, .refl _ _ _⟩

theorem ofEffect (e : Effect α) : Refines (Run.ofEffect e) (Scoped.ofEffect e) :=
  fun _ _ => ⟨rfl, rfl, .refl _ _ _⟩

theorem lookup (name : String) : Refines (Run.lookup name) (Scoped.lookup name) := by
  intro m _
  refine ⟨?_, rfl, .refl _ _ _⟩
  unfold Run.lookup Scoped.lookup Scopes.lookup
  cases (m.scopes.chain m.scope).lookup? name <;> rfl

theorem bind {k : α → Run β} {g : α → Scoped β} (h : Refines r f) (hk : ∀ a, Refines (k a) (g a)) :
    Refines (r >>= k) (f >>= g) := by
  rw [refines_iff_simulates, ofScoped_bind]
  exact (Simulates.ofScoped h).bind fun a => .ofScoped (hk a)

theorem silent_bind {q : Run Unit} {k : Unit → Run α} (hq : Silent q) (hk : Refines (k ()) f) :
    Refines (q >>= k) f := by
  rw [refines_iff_simulates]
  exact Simulates.silent_bind hq (.ofScoped hk)

theorem mapAll {γ : Type} {p : γ → Run α} {g : γ → Scoped α} (h : ∀ x, Refines (p x) (g x))
    (xs : List γ) : Refines (Run.mapAll p xs) (Scoped.mapAll g xs) := by
  induction xs with
  | nil => exact pure []
  | cons x xs ih => exact bind (h x) fun y => bind ih fun ys => pure (y :: ys)

theorem framed (h : Refines r f) (frame : Frame) : Refines (Run.framed frame r) f := by
  intro m hm
  -- Neither side of the invariant looks at frames, so it holds of the machine that was entered.
  have hentered := h { m with
    frames := m.frames.take m.activeFrames ++ [frame]
    activeFrames := m.activeFrames + 1 } hm
  unfold Run.framed
  dsimp only at hentered ⊢
  split
  · rename_i hr
    rw [hr] at hentered
    exact hentered
  · rename_i hr
    rw [hr] at hentered
    exact hentered

/-- An evaluation in a scope is the pure one over the chain of that scope. -/
theorem evaluation (h : Refines r f) {m : Machine} (scope : Option Nat)
    (hm : scope.getD m.scope < m.scopes.all.length) :
    f (m.scopes.chain (scope.getD m.scope)) m.store =
        ((Run.evaluation scope r m).1, (Run.evaluation scope r m).2.store) ∧
      (Run.evaluation scope r m).2.scope = m.scope ∧
      m.scopes.Keeps false m.scope (Run.evaluation scope r m).2.scopes := by
  obtain ⟨hresult, -, hkeeps⟩ := h { m with
    frames := if m.depth = 0 then [] else m.frames
    scope := scope.getD m.scope
    depth := m.depth + 1 } hm
  exact ⟨hresult, rfl, hkeeps.weaken false m.scope⟩

end Refines

namespace Simulates

variable {α : Type} {opened : Bool} {r : Run α} {f : Block α}

theorem run (h : Simulates false r f) : Refines r f.run := by
  intro m hm
  obtain ⟨hresult, hscope, hkeeps⟩ := h m hm
  exact ⟨by rw [Block.run, hresult], hscope, hkeeps⟩

theorem bindHere (name : String) (v : Value) :
    Simulates true (Run.bindHere name v) (Block.bindHere name v) := by
  intro m hm
  rw [Run.bindHere, bindAt_eq, Block.bindHere]
  cases Binding.ofText? name v with
  | error x => exact ⟨rfl, rfl, .refl _ _ _⟩
  | ok b =>
      refine ⟨?_, rfl, m.scopes.keeps_insert m.scope b⟩
      change _ = (_, (m.scopes.insert m.scope b).chain m.scope, _)
      rw [Scopes.chain_insert b hm]

theorem inChild (h : Simulates true r f) : Refines (Run.inChild r) f.inChild := by
  intro m hm
  have hlength : m.scopes.all.length < (m.scopes.push m.scope).2.all.length := by
    rw [Scopes.push, Scopes.length_add]
    exact Nat.lt_succ_self _
  have hchain : (m.scopes.push m.scope).2.chain (m.scopes.push m.scope).1 =
      [] :: m.scopes.chain m.scope :=
    m.scopes.chain_add (some m.scope) fun i hi => Option.some.inj hi ▸ hm
  obtain ⟨hresult, -, hkeeps⟩ := h { m with
    scopes := (m.scopes.push m.scope).2
    scope := (m.scopes.push m.scope).1 } hlength
  rw [hchain] at hresult
  refine ⟨?_, rfl, ?_⟩
  · rw [Block.inChild, Block.run, hresult]
    rfl
  · have hadd : m.scopes.Keeps false m.scope (m.scopes.push m.scope).2 :=
      m.scopes.keeps_add (some m.scope) false m.scope
    exact hadd.trans_of_new hkeeps (Nat.le_refl _)

theorem recover {handler : Failure → Run α} {g : Failure → Block α} (hbody : Simulates opened r f)
    (hhandler : ∀ x, Simulates opened (handler x) (g x)) :
    Simulates opened (Run.recover r handler) (Block.recover f g) := by
  intro m hm
  obtain ⟨hresult, hscope, hkeeps⟩ := hbody m hm
  rw [Run.recover, Block.recover, hresult]
  cases hr : r m with
  | mk o m' =>
      rw [hr] at hscope hkeeps
      cases o with
      | ok a => exact ⟨rfl, hscope, hkeeps⟩
      | failed x =>
          -- The handler starts from the scopes and the store that the body has left.
          by_cases hx : x.isEvaluation
          · simp only [hx, if_true]
            exact after hm hscope hkeeps (hhandler x)
          · simp only [hx]
            exact ⟨rfl, hscope, hkeeps⟩
      | unfinished => exact ⟨rfl, hscope, hkeeps⟩

end Simulates

section Places

variable {m : Machine}

theorem mapAll_bindAt_cons {b : String × Value} {binding : Binding} (i : Nat)
    (rest : List (String × Value)) (h : Binding.ofText? b.1 b.2 = .ok binding) :
    Run.mapAll (fun (b : String × Value) => Run.bindAt i b.1 b.2) (b :: rest) m =
      Run.bind (Run.mapAll (fun (b : String × Value) => Run.bindAt i b.1 b.2) rest)
        (fun us => Run.pure (() :: us)) { m with scopes := m.scopes.insert i binding } := by
  rw [Run.mapAll, Run.bind, bindAt_eq, h]

theorem bindAll_cons {b : String × Value} {binding : Binding} (chain : Chain)
    (rest : List (String × Value)) (h : Binding.ofText? b.1 b.2 = .ok binding) :
    chain.bindAll (b :: rest) = (chain.insertTop binding).bindAll rest := by
  rw [Chain.bindAll, h]
  rfl

theorem mapAll_bindAt (i : Nat) (bindings : List (String × Value)) (hi : i < m.scopes.all.length) :
    ∃ o m', Run.mapAll (fun (b : String × Value) => Run.bindAt i b.1 b.2) bindings m = (o, m') ∧
      m'.store = m.store ∧ m'.scope = m.scope ∧ m.scopes.Keeps true i m'.scopes ∧
      match (m.scopes.chain i).bindAll bindings with
      | .ok c => (∃ us, o = .ok us) ∧ m'.scopes.chain i = c
      | .error x => o = .failed x := by
  -- Over all machines, since each binding changes the scopes that the next one meets.
  induction bindings generalizing m with
  | nil => exact ⟨.ok [], m, rfl, rfl, rfl, .refl _ _ _, ⟨[], rfl⟩, rfl⟩
  | cons b rest ih =>
      cases hb : Binding.ofText? b.1 b.2 with
      | error x =>
          rw [Run.mapAll, Run.bind, bindAt_eq, Chain.bindAll, hb]
          exact ⟨_, m, rfl, rfl, rfl, .refl _ _ _, rfl⟩
      | ok binding =>
          have hkeeps := m.scopes.keeps_insert i binding
          obtain ⟨o, m', hrun, hstore, hscope, hkeeps', hresult⟩ :=
            ih (m := { m with scopes := m.scopes.insert i binding })
              (Nat.lt_of_lt_of_le hi hkeeps.length_le)
          rw [Scopes.chain_insert binding hi] at hresult
          rw [mapAll_bindAt_cons i rest hb, bindAll_cons _ rest hb, Run.bind, hrun]
          cases hc : ((m.scopes.chain i).insertTop binding).bindAll rest with
          | ok c =>
              rw [hc] at hresult
              obtain ⟨⟨us, rfl⟩, hchain⟩ := hresult
              exact ⟨_, m', rfl, hstore, hscope, hkeeps.trans hkeeps', ⟨_, rfl⟩, hchain⟩
          | error x =>
              rw [hc] at hresult
              obtain rfl : o = .failed x := hresult
              exact ⟨_, m', rfl, hstore, hscope, hkeeps.trans hkeeps', rfl⟩

/-- Whether the place of a scope was found that sees what is expected, all else being kept. -/
def Finds (m : Machine) (found : Outcome (Option Nat) × Machine)
    (expected : Except Failure (Option Chain)) : Prop :=
  found.2.store = m.store ∧ found.2.scope = m.scope ∧
    m.scopes.Keeps false m.scope found.2.scopes ∧
    match expected with
    | .error x => found.1 = .failed x
    | .ok none => found.1 = .ok none
    | .ok (some c) => ∃ i, found.1 = .ok (some i) ∧ i < found.2.scopes.all.length ∧
        found.2.scopes.chain i = c

theorem finds_child {found : Outcome (Option Nat) × Machine} {parent : Option Chain}
    (bindings : List (String × Value)) {p : Option Nat} (hfound : found.1 = .ok p)
    (h : Finds m found (.ok parent)) :
    Finds m (Run.bind (Run.addScope p bindings) (fun i => Run.pure (some i)) found.2)
      ((Chain.bindAll ([] :: parent.getD []) bindings).map some) := by
  obtain ⟨hstore, hscope, hkeeps, hplace⟩ := h
  obtain ⟨o, m'⟩ := found
  obtain rfl : o = .ok p := hfound
  have hparent : (∀ i ∈ p, i < m'.scopes.all.length) ∧
      (p.map m'.scopes.chain).getD [] = parent.getD [] := by
    cases parent with
    | none =>
        obtain rfl : p = none := by simpa using hplace
        simp
    | some c =>
        obtain ⟨i, hi, hlt, hchain⟩ := hplace
        obtain rfl : p = some i := by simpa using hi
        simp [hlt, hchain]
  have hadd := m'.scopes.keeps_add p false m.scope
  have hnew : m'.scopes.all.length < (m'.scopes.add p).2.all.length := by
    rw [Scopes.length_add]
    exact Nat.lt_succ_self _
  have hchain := m'.scopes.chain_add p hparent.1
  obtain ⟨o, m'', hrun, hstore', hscope', hkeeps', hresult⟩ :=
    mapAll_bindAt (m := { m' with scopes := (m'.scopes.add p).2 }) (m'.scopes.add p).1 bindings
      hnew
  rw [hchain, hparent.2] at hresult
  have hkept : m.scopes.Keeps false m.scope m''.scopes :=
    (hkeeps.trans hadd).trans_of_new hkeeps' hkeeps.length_le
  have hadded : Run.addScope p bindings m' =
      Run.bind (fun _ => (o, m'')) (fun _ => Run.pure (m'.scopes.add p).1) m' := by
    rw [Run.bind, ← hrun]
    rfl
  rw [Run.bind, hadded, Run.bind]
  cases hc : Chain.bindAll ([] :: parent.getD []) bindings with
  | ok c =>
      rw [hc] at hresult
      obtain ⟨⟨us, rfl⟩, hchain'⟩ := hresult
      exact ⟨hstore'.trans hstore, hscope'.trans hscope, hkept, _, rfl,
        Nat.lt_of_lt_of_le hnew hkeeps'.length_le, hchain'⟩
  | error x =>
      rw [hc] at hresult
      obtain rfl : o = .failed x := hresult
      exact ⟨hstore'.trans hstore, hscope'.trans hscope, hkept, rfl⟩

theorem ofRef_parent {chain c : Chain} {r : ScopeRef} (h : chain.ofRef r = .ok (some c)) :
    chain.ofRef (.parent r) = .ok (if c.tail.isEmpty then none else some c.tail) := by
  rw [Chain.ofRef, h]
  rfl

theorem ofRef_child {chain : Chain} {parent : Option Chain} {r : ScopeRef}
    (h : chain.ofRef r = .ok parent) (bindings : List (String × Value)) :
    chain.ofRef (.child r bindings) =
      (Chain.bindAll ([] :: parent.getD []) bindings).map some := by
  rw [Chain.ofRef, h]
  change (do return some (← Chain.bindAll ([] :: parent.getD []) bindings)) = _
  cases Chain.bindAll ([] :: parent.getD []) bindings <;> rfl

theorem finds_scopeOf (r : ScopeRef) (hm : m.scope < m.scopes.all.length) :
    Finds m (Run.scopeOf r m) ((m.scopes.chain m.scope).ofRef r) := by
  induction r with
  | absent => exact ⟨rfl, rfl, .refl _ _ _, rfl⟩
  | here => exact ⟨rfl, rfl, .refl _ _ _, m.scope, rfl, hm, rfl⟩
  | parent r ih =>
      rw [Run.scopeOf, Run.bind]
      cases hr : Run.scopeOf r m with
      | mk o m' =>
          rw [hr] at ih
          obtain ⟨hstore, hscope, hkeeps, hplace⟩ := ih
          cases hc : (m.scopes.chain m.scope).ofRef r with
          | error x =>
              rw [hc] at hplace
              obtain rfl : o = .failed x := hplace
              rw [Chain.ofRef, hc]
              exact ⟨hstore, hscope, hkeeps, rfl⟩
          | ok found =>
              rw [hc] at hplace
              cases found with
              | none =>
                  obtain rfl : o = .ok none := hplace
                  rw [Chain.ofRef, hc]
                  exact ⟨hstore, hscope, hkeeps, rfl⟩
              | some c =>
                  obtain ⟨i, hi, hlt, hchain⟩ := hplace
                  obtain rfl : o = .ok (some i) := hi
                  refine ⟨hstore, hscope, hkeeps, ?_⟩
                  rw [ofRef_parent hc]
                  dsimp only at hlt hchain
                  rcases Scopes.chain_parent? hlt with
                    ⟨hnone, htail⟩ | ⟨p, hp, hless, hchain', htail⟩
                  · rw [hchain] at htail
                    rw [if_pos (by rw [htail]; rfl)]
                    exact congrArg Outcome.ok hnone
                  · rw [hchain] at hchain' htail
                    rw [if_neg (by simpa using htail)]
                    exact ⟨p, congrArg Outcome.ok hp, hless, hchain'⟩
  | child r bindings ih =>
      rw [Run.scopeOf, Run.bind]
      cases hc : (m.scopes.chain m.scope).ofRef r with
      | error x =>
          rw [hc] at ih
          obtain ⟨hstore, hscope, hkeeps, hplace⟩ := ih
          rw [Chain.ofRef, hc]
          cases hr : Run.scopeOf r m with
          | mk o m' =>
              rw [hr] at hstore hscope hkeeps hplace
              obtain rfl : o = .failed x := hplace
              exact ⟨hstore, hscope, hkeeps, rfl⟩
      | ok parent =>
          rw [hc] at ih
          have hfound : ∃ p, (Run.scopeOf r m).1 = .ok p := by
            obtain ⟨-, -, -, hplace⟩ := ih
            cases parent with
            | none => exact ⟨none, hplace⟩
            | some c =>
                obtain ⟨i, hi, -⟩ := hplace
                exact ⟨some i, hi⟩
          obtain ⟨p, hp⟩ := hfound
          have hchild := finds_child bindings hp ih
          rw [ofRef_child hc]
          cases hr : Run.scopeOf r m with
          | mk o m' =>
              rw [hr] at hp hchild
              obtain rfl : o = .ok p := hp
              exact hchild

theorem Refines.inside {α : Type} {body : Run α} {f : Scoped α} (h : Refines body f)
    (r : ScopeRef) :
    Refines (Run.bind (Run.scopeOf r) fun scope => Run.evaluation scope body)
      (Scoped.inside r f) := by
  intro m hm
  obtain ⟨hstore, hscope, hkeeps, hplace⟩ := finds_scopeOf r hm
  rw [Run.bind, Scoped.inside]
  cases hr : Run.scopeOf r m with
  | mk o m' =>
      rw [hr] at hstore hscope hkeeps hplace
      have hm' : m'.scope < m'.scopes.all.length := hscope ▸ Nat.lt_of_lt_of_le hm hkeeps.length_le
      cases hc : (m.scopes.chain m.scope).ofRef r with
      | error x =>
          rw [hc] at hplace
          obtain rfl : o = .failed x := hplace
          exact ⟨by rw [← hstore], hscope, hkeeps⟩
      | ok found =>
          rw [hc] at hplace
          have hin : ∃ scope : Option Nat, o = .ok scope ∧
              scope.getD m'.scope < m'.scopes.all.length ∧
              m'.scopes.chain (scope.getD m'.scope) = found.getD (m.scopes.chain m.scope) := by
            cases found with
            | none =>
                refine ⟨none, hplace, hm', ?_⟩
                change m'.scopes.chain m'.scope = m.scopes.chain m.scope
                rw [hscope, Scopes.chain_of_keeps_closed hkeeps hm]
            | some c =>
                obtain ⟨i, hi, hlt, hchain⟩ := hplace
                exact ⟨some i, hi, hlt, hchain⟩
          obtain ⟨scope, rfl, hlt, hchain⟩ := hin
          obtain ⟨hresult, hscope', hkeeps'⟩ := h.evaluation scope hlt
          rw [hchain, hstore] at hresult
          rw [hscope] at hkeeps'
          exact ⟨hresult, hscope'.trans hscope, hkeeps.trans hkeeps'⟩

end Places

end HostedLisp
