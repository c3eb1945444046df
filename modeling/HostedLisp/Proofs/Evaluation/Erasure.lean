import HostedLisp.Proofs.Evaluation.Restoration

namespace HostedLisp

/-- Whether two computations have the same result from each two states in a relation, and leave two
such states. -/
def Run.InStep {α : Type} (R : Machine → Machine → Prop) (r r' : Run α) : Prop :=
  ∀ m m' : Machine, R m m' → (r m).1 = (r' m').1 ∧ R (r m).2 (r' m').2

namespace Run.InStep

variable {R : Machine → Machine → Prop} {α β : Type} {r r' : Run α}

theorem constant (o : Outcome α) : InStep R (fun m => (o, m)) fun m => (o, m) :=
  fun _ _ hm => ⟨rfl, hm⟩

theorem pure (a : α) : InStep R (Run.pure a) (Run.pure a) := constant (.ok a)

theorem fail (f : Failure) : InStep R (Run.fail f : Run α) (Run.fail f) := constant (.failed f)

theorem unfinished : InStep R (Run.unfinished : Run α) Run.unfinished := constant .unfinished

theorem bind {k k' : α → Run β} (h : InStep R r r') (hk : ∀ a, InStep R (k a) (k' a)) :
    InStep R (r >>= k) (r' >>= k') := by
  intro m m' hm
  obtain ⟨hresult, hmachines⟩ := h m m' hm
  change (Run.bind r k m).1 = (Run.bind r' k' m').1 ∧
    R (Run.bind r k m).2 (Run.bind r' k' m').2
  unfold Run.bind
  cases hr : r m with
  | mk o n =>
      cases hr' : r' m' with
      | mk o' n' =>
          rw [hr, hr'] at hresult hmachines
          obtain rfl : o = o' := hresult
          cases o with
          | ok a => exact hk a n n' hmachines
          | failed f => exact ⟨rfl, hmachines⟩
          | unfinished => exact ⟨rfl, hmachines⟩

theorem read_bind {k k' : Machine → Run β} (hk : ∀ m m', R m m' → InStep R (k m) (k' m')) :
    InStep R (Run.read >>= k) (Run.read >>= k') :=
  fun m m' hm => hk m m' hm m m' hm

theorem mapAll_map {γ δ : Type} {f : γ → Run α} {f' : δ → Run α} {g : γ → δ}
    (h : ∀ x, InStep R (f x) (f' (g x))) (xs : List γ) :
    InStep R (Run.mapAll f xs) (Run.mapAll f' (xs.map g)) := by
  induction xs with
  | nil => exact pure []
  | cons x xs ih => exact (h x).bind fun y => ih.bind fun ys => pure (y :: ys)

theorem mapAll {γ : Type} {f : γ → Run α} (h : ∀ x, InStep R (f x) (f x)) (xs : List γ) :
    InStep R (Run.mapAll f xs) (Run.mapAll f xs) := by
  have hmap := mapAll_map (g := id) h xs
  rwa [List.map_id] at hmap

theorem recover {k k' : Failure → Run α} (h : InStep R r r') (hk : ∀ f, InStep R (k f) (k' f)) :
    InStep R (Run.recover r k) (Run.recover r' k') := by
  intro m m' hm
  obtain ⟨hresult, hmachines⟩ := h m m' hm
  unfold Run.recover
  cases hr : r m with
  | mk o n =>
      cases hr' : r' m' with
      | mk o' n' =>
          rw [hr, hr'] at hresult hmachines
          obtain rfl : o = o' := hresult
          cases o with
          | ok a => exact ⟨rfl, hmachines⟩
          | unfinished => exact ⟨rfl, hmachines⟩
          | failed f =>
              dsimp only
              split
              · exact hk f n n' hmachines
              · exact ⟨rfl, hmachines⟩

end Run.InStep

/-- Whether states in a relation have the same scopes and the same store, and stay in it when these
are changed alike. -/
structure Machine.SharesMemory (R : Machine → Machine → Prop) : Prop where
  scopes_eq : ∀ {m m'}, R m m' → m.scopes = m'.scopes
  scope_eq : ∀ {m m'}, R m m' → m.scope = m'.scope
  store_eq : ∀ {m m'}, R m m' → m.store = m'.store
  withScopes : ∀ {m m'}, R m m' → ∀ scopes,
    R { m with scopes := scopes } { m' with scopes := scopes }
  withScope : ∀ {m m'}, R m m' → ∀ scope, R { m with scope := scope } { m' with scope := scope }
  withStore : ∀ {m m'}, R m m' → ∀ store, R { m with store := store } { m' with store := store }

namespace Machine.SharesMemory

open Run

variable {R : Machine → Machine → Prop} (h : SharesMemory R) {α : Type} {r r' : Run α}
include h

theorem ofEffect (e : Effect α) : InStep R (Run.ofEffect e) (Run.ofEffect e) := by
  intro m m' hm
  rw [Run.ofEffect, Run.ofEffect, h.store_eq hm]
  exact ⟨rfl, h.withStore hm _⟩

theorem lookup (name : String) : InStep R (Run.lookup name) (Run.lookup name) := by
  intro m m' hm
  rw [Run.lookup, Run.lookup, h.scopes_eq hm, h.scope_eq hm]
  exact ⟨rfl, hm⟩

theorem bindAt (i : Nat) (name : String) (v : Value) :
    InStep R (Run.bindAt i name v) (Run.bindAt i name v) := by
  intro m m' hm
  rw [Run.bindAt, Run.bindAt, h.scopes_eq hm]
  cases m'.scopes.bindText i name v with
  | ok b => exact ⟨rfl, h.withScopes hm _⟩
  | error f => exact ⟨rfl, hm⟩

theorem bindHere (name : String) (v : Value) :
    InStep R (Run.bindHere name v) (Run.bindHere name v) := by
  intro m m' hm
  rw [Run.bindHere, Run.bindHere, h.scope_eq hm]
  exact h.bindAt m'.scope name v m m' hm

theorem bindAllHere (bindings : List (String × Value)) :
    InStep R (Run.mapAll (fun b : String × Value => Run.bindHere b.1 b.2) bindings)
      (Run.mapAll (fun b : String × Value => Run.bindHere b.1 b.2) bindings) :=
  .mapAll (fun b => h.bindHere b.1 b.2) bindings

theorem addScope (parent : Option Nat) (bindings : List (String × Value)) :
    InStep R (Run.addScope parent bindings) (Run.addScope parent bindings) := by
  intro m m' hm
  have hbindings := InStep.mapAll (fun b : String × Value =>
    h.bindAt (m'.scopes.add parent).1 b.1 b.2) bindings
  rw [Run.addScope, Run.addScope, h.scopes_eq hm]
  exact hbindings.bind (fun _ => .pure _) _ _ (h.withScopes hm _)

theorem scopeOf (ref : ScopeRef) : InStep R (Run.scopeOf ref) (Run.scopeOf ref) := by
  induction ref with
  | absent => exact .pure none
  | here => exact fun m m' hm => ⟨congrArg (Outcome.ok ∘ some) (h.scope_eq hm), hm⟩
  | parent ref ih =>
      rw [Run.scopeOf]
      refine ih.bind fun found => ?_
      cases found with
      | none => exact .fail _
      | some i =>
          exact fun m m' hm =>
            ⟨congrArg (fun s : Scopes => Outcome.ok (s.parent? i)) (h.scopes_eq hm), hm⟩
  | child ref bindings ih =>
      rw [Run.scopeOf]
      exact ih.bind fun parent => (h.addScope parent bindings).bind fun i => .pure (some i)

theorem inChild (hr : InStep R r r') : InStep R (Run.inChild r) (Run.inChild r') := by
  intro m m' hm
  have hentered : R m.opening m'.opening := by
    have hpushed := h.withScope (h.withScopes hm (m'.scopes.push m'.scope).2)
      (m'.scopes.push m'.scope).1
    rwa [Machine.opening, Machine.opening, h.scopes_eq hm, h.scope_eq hm]
  obtain ⟨hresult, hmachines⟩ := hr _ _ hentered
  rw [Run.inChild_eq, Run.inChild_eq, h.scope_eq hm]
  exact ⟨hresult, h.withScope hmachines _⟩

theorem settled {r r' : Run Value} {k k' : Value → Run Value} (hr : InStep R r r')
    (hk : ∀ v, InStep R (k v) (k' v)) :
    InStep R (do k (← Run.ofEffect (Effect.settle (← r))))
      (do k' (← Run.ofEffect (Effect.settle (← r')))) :=
  hr.bind fun v => (h.ofEffect (Effect.settle v)).bind hk

end Machine.SharesMemory

/-- Whether two computations have the same result from each two states of which the same is left
when something is erased, and leave two such states. -/
def Run.AlikeUnder {α : Type} (erase : Machine → Machine) (r r' : Run α) : Prop :=
  ∀ m m' : Machine, erase m = erase m' → (r m).1 = (r' m').1 ∧ erase (r m).2 = erase (r' m').2

namespace Run.AlikeUnder

variable {erase : Machine → Machine} {α β : Type} {r r' r'' : Run α}

theorem inStep (h : AlikeUnder erase r r') : InStep (fun m m' => erase m = erase m') r r' := h

theorem symm (h : AlikeUnder erase r r') : AlikeUnder erase r' r := fun m m' hm =>
  ⟨(h m' m hm.symm).1.symm, (h m' m hm.symm).2.symm⟩

theorem trans (h : AlikeUnder erase r r') (h' : AlikeUnder erase r' r'') :
    AlikeUnder erase r r'' := fun m m' hm =>
  ⟨(h m m rfl).1.trans (h' m m' hm).1, (h m m rfl).2.trans (h' m m' hm).2⟩

theorem pure (a : α) : AlikeUnder erase (Run.pure a) (Run.pure a) := InStep.pure a

theorem fail (f : Failure) : AlikeUnder erase (Run.fail f : Run α) (Run.fail f) := InStep.fail f

theorem unfinished : AlikeUnder erase (Run.unfinished : Run α) Run.unfinished :=
  InStep.unfinished

theorem bind {k k' : α → Run β} (h : AlikeUnder erase r r')
    (hk : ∀ a, AlikeUnder erase (k a) (k' a)) : AlikeUnder erase (r >>= k) (r' >>= k') :=
  h.inStep.bind hk

theorem read_bind {k k' : Machine → Run β}
    (hk : ∀ m m', erase m = erase m' → AlikeUnder erase (k m) (k' m')) :
    AlikeUnder erase (Run.read >>= k) (Run.read >>= k') :=
  InStep.read_bind hk

theorem mapAll_map {γ δ : Type} {f : γ → Run α} {f' : δ → Run α} {g : γ → δ}
    (h : ∀ x, AlikeUnder erase (f x) (f' (g x))) (xs : List γ) :
    AlikeUnder erase (Run.mapAll f xs) (Run.mapAll f' (xs.map g)) :=
  InStep.mapAll_map h xs

theorem recover {k k' : Failure → Run α} (h : AlikeUnder erase r r')
    (hk : ∀ f, AlikeUnder erase (k f) (k' f)) :
    AlikeUnder erase (Run.recover r k) (Run.recover r' k') :=
  h.inStep.recover hk

end Run.AlikeUnder

/-- Whether what is erased of a state is neither its scopes nor its store, and does not depend on
these. -/
structure Erasure (erase : Machine → Machine) : Prop where
  scopes_eq : ∀ {m m'}, erase m = erase m' → m.scopes = m'.scopes
  scope_eq : ∀ {m m'}, erase m = erase m' → m.scope = m'.scope
  store_eq : ∀ {m m'}, erase m = erase m' → m.store = m'.store
  withScopes : ∀ {m m'}, erase m = erase m' → ∀ scopes,
    erase { m with scopes := scopes } = erase { m' with scopes := scopes }
  withScope : ∀ {m m'}, erase m = erase m' → ∀ scope,
    erase { m with scope := scope } = erase { m' with scope := scope }
  withStore : ∀ {m m'}, erase m = erase m' → ∀ store,
    erase { m with store := store } = erase { m' with store := store }

namespace Erasure

open Run

variable {erase : Machine → Machine} (h : Erasure erase) {α : Type} {r r' : Run α}
include h

theorem sharesMemory : Machine.SharesMemory fun m m' => erase m = erase m' :=
  ⟨h.scopes_eq, h.scope_eq, h.store_eq, h.withScopes, h.withScope, h.withStore⟩

theorem ofEffect (e : Effect α) : AlikeUnder erase (Run.ofEffect e) (Run.ofEffect e) :=
  h.sharesMemory.ofEffect e

theorem lookup (name : String) : AlikeUnder erase (Run.lookup name) (Run.lookup name) :=
  h.sharesMemory.lookup name

theorem bindHere (name : String) (v : Value) :
    AlikeUnder erase (Run.bindHere name v) (Run.bindHere name v) :=
  h.sharesMemory.bindHere name v

theorem bindAllHere (bindings : List (String × Value)) :
    AlikeUnder erase (Run.mapAll (fun b : String × Value => Run.bindHere b.1 b.2) bindings)
      (Run.mapAll (fun b : String × Value => Run.bindHere b.1 b.2) bindings) :=
  h.sharesMemory.bindAllHere bindings

theorem scopeOf (ref : ScopeRef) : AlikeUnder erase (Run.scopeOf ref) (Run.scopeOf ref) :=
  h.sharesMemory.scopeOf ref

theorem inChild (hr : AlikeUnder erase r r') :
    AlikeUnder erase (Run.inChild r) (Run.inChild r') :=
  h.sharesMemory.inChild hr

theorem settled {r r' : Run Value} {k k' : Value → Run Value} (hr : AlikeUnder erase r r')
    (hk : ∀ v, AlikeUnder erase (k v) (k' v)) :
    AlikeUnder erase (do k (← Run.ofEffect (Effect.settle (← r))))
      (do k' (← Run.ofEffect (Effect.settle (← r')))) :=
  h.sharesMemory.settled hr hk

end Erasure

end HostedLisp
